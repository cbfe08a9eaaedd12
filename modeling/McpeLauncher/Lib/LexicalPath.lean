import Mathlib.Algebra.Order.BigOperators.Group.List
import Mathlib.Algebra.Order.Group.Nat
import Mathlib.Data.List.Induction
import Mathlib.Data.List.Infix
import Mathlib.Data.List.TakeWhile

/-!
# Lexical resolution of paths

A path is the list of its components. The empty component and `.` are skipped, `..` goes up, and
nothing is above the root. A relative path resolves to how far it climbs and where it goes from
there, wherever it starts.
-/

namespace LexicalPath

abbrev Path := List (List Char)

/-- A component that names something. -/
def IsName (c : List Char) : Prop := c ≠ [] ∧ c ≠ ['.'] ∧ c ≠ ['.', '.']
  deriving Decidable

/-- One component, from the directory `dir`. -/
def push (dir : Path) (c : List Char) : Path :=
  if c = [] ∨ c = ['.'] then dir else if c = ['.', '.'] then dir.dropLast else dir ++ [c]

def resolveFrom (dir : Path) (p : Path) : Path := p.foldl push dir

/-- What an absolute path names. -/
def resolve (p : Path) : Path := resolveFrom [] p

/-- How far a relative path climbs above where it starts, and where it goes from there. -/
structure Relative where
  ups : Nat
  rest : Path
  deriving DecidableEq

def Relative.push (r : Relative) (c : List Char) : Relative :=
  if c = [] ∨ c = ['.'] then r
  else if c = ['.', '.'] then
    if r.rest = [] then ⟨r.ups + 1, []⟩ else ⟨r.ups, r.rest.dropLast⟩
  else ⟨r.ups, r.rest ++ [c]⟩

def relative (p : Path) : Relative := p.foldl Relative.push ⟨0, []⟩

/-- The three kinds of components. -/
theorem component_cases (c : List Char) :
    (c = [] ∨ c = ['.']) ∨ (¬(c = [] ∨ c = ['.']) ∧ c = ['.', '.']) ∨ IsName c := by
  by_cases hdot : c = [] ∨ c = ['.']
  · exact .inl hdot
  by_cases hup : c = ['.', '.']
  · exact .inr (.inl ⟨hdot, hup⟩)
  · rw [not_or] at hdot
    exact .inr (.inr ⟨hdot.1, hdot.2, hup⟩)

theorem IsName.push {c : List Char} (hc : IsName c) (dir : Path) : push dir c = dir ++ [c] := by
  rw [LexicalPath.push, if_neg (not_or.mpr ⟨hc.1, hc.2.1⟩), if_neg hc.2.2]

theorem IsName.relative_push {c : List Char} (hc : IsName c) (r : Relative) :
    r.push c = ⟨r.ups, r.rest ++ [c]⟩ := by
  rw [Relative.push, if_neg (not_or.mpr ⟨hc.1, hc.2.1⟩), if_neg hc.2.2]

theorem relative_append_singleton (p : Path) (c : List Char) :
    relative (p ++ [c]) = (relative p).push c := by
  rw [relative, List.foldl_append]
  rfl

/-- One component of a relative path, from wherever it starts. -/
theorem push_relative (dir : Path) (r : Relative) (c : List Char) :
    push (dir.take (dir.length - r.ups) ++ r.rest) c =
      dir.take (dir.length - (r.push c).ups) ++ (r.push c).rest := by
  rcases component_cases c with hdot | ⟨hdot, hup⟩ | hname
  · rw [push, Relative.push, if_pos hdot, if_pos hdot]
  · rw [push, Relative.push, if_neg hdot, if_neg hdot, if_pos hup, if_pos hup]
    split
    · rename_i hrest
      rw [hrest, List.append_nil, List.append_nil, List.dropLast_eq_take, List.take_take,
        List.length_take]
      congr 1
      simp only
      omega
    · rename_i hrest
      rw [List.dropLast_append_of_ne_nil hrest]
  · rw [hname.push, hname.relative_push, List.append_assoc]

/-- **Resolution of a relative path.** -/
theorem resolveFrom_eq (dir p : Path) :
    resolveFrom dir p = dir.take (dir.length - (relative p).ups) ++ (relative p).rest := by
  induction p using List.reverseRecOn with
  | nil =>
    rw [relative, List.foldl_nil, Nat.sub_zero, List.take_length, List.append_nil]
    rfl
  | append_singleton p c ih =>
    rw [resolveFrom, List.foldl_append, relative_append_singleton, ← push_relative, ← ih]
    rfl

theorem Relative.ups_push (r : Relative) (c : List Char) : r.ups ≤ (r.push c).ups := by
  unfold Relative.push
  split_ifs <;> simp

/-- A path that climbs out does not come back. -/
theorem ups_mono {p q : Path} (h : p <+: q) : (relative p).ups ≤ (relative q).ups := by
  obtain ⟨r, rfl⟩ := h
  induction r using List.reverseRecOn with
  | nil => rw [List.append_nil]
  | append_singleton r c ih =>
    rw [← List.append_assoc, relative_append_singleton]
    exact ih.trans (Relative.ups_push _ c)

/-- Where a path goes is made of its own names. -/
theorem mem_rest {p : Path} {c : List Char} (h : c ∈ (relative p).rest) : c ∈ p := by
  induction p using List.reverseRecOn with
  | nil => exact h
  | append_singleton p d ih =>
    rw [relative_append_singleton] at h
    rw [List.mem_append]
    unfold Relative.push at h
    split_ifs at h
    · exact .inl (ih h)
    · exact absurd h List.not_mem_nil
    · exact .inl (ih (List.dropLast_subset _ h))
    · rcases List.mem_append.mp h with h | h
      · exact .inl (ih h)
      · exact .inr h

/-! ## Directories -/

/-- An absolute path without `.` and `..` that is not the root. -/
structure Directory where
  names : Path
  isName : ∀ c ∈ names, IsName c
  ne_root : names ≠ []

namespace Directory

variable {d : Directory} {q : Path}

/-- An absolute path begins with the empty component. -/
def path (d : Directory) : Path := [] :: d.names

theorem resolveFrom_names {names : Path} (h : ∀ c ∈ names, IsName c) (dir : Path) :
    resolveFrom dir names = dir ++ names := by
  induction names generalizing dir with
  | nil => exact (List.append_nil dir).symm
  | cons c names ih =>
    rw [resolveFrom, List.foldl_cons, (h c (.head names)).push]
    exact (ih (fun c hc => h c (.tail _ hc)) _).trans (List.append_assoc ..)

theorem resolve_path_append (d : Directory) (q : Path) :
    resolve (d.path ++ q) = d.names.take (d.names.length - (relative q).ups) ++ (relative q).rest := by
  have hnames : resolveFrom [] d.names = d.names := resolveFrom_names d.isName []
  rw [← resolveFrom_eq, resolve, resolveFrom, List.foldl_append]
  exact congrArg (resolveFrom · q) hnames

/-- The directory itself or one above it. -/
def Above (d : Directory) (p : Path) : Prop := resolve p <+: d.names

/-- Strictly inside the directory. -/
def Inside (d : Directory) (p : Path) : Prop :=
  p.head? = some [] ∧ d.names <+: resolve p ∧ resolve p ≠ d.names

/-- A part of the path of the directory. -/
theorem above_take (d : Directory) (n : Nat) : d.Above (d.path.take n) := by
  cases n with
  | zero => exact List.nil_prefix
  | succ n =>
    have hsub : ∀ c ∈ d.names.take n, IsName c := fun c hc => d.isName c (List.take_subset n _ hc)
    have hres : resolve (d.path.take (n + 1)) = d.names.take n := resolveFrom_names hsub []
    rw [Above, hres]
    exact List.take_prefix n _

theorem inside_of_rest (hups : (relative q).ups = 0) (hrest : (relative q).rest ≠ []) :
    d.Inside (d.path ++ q) := by
  have hres : resolve (d.path ++ q) = d.names ++ (relative q).rest := by
    rw [resolve_path_append, hups, Nat.sub_zero, List.take_length]
  refine ⟨rfl, ?_, ?_⟩
  · rw [hres]
    exact List.prefix_append _ _
  · rw [hres]
    exact fun he => hrest (List.append_right_eq_self.mp he)

theorem above_of_rest (hrest : (relative q).rest = []) : d.Above (d.path ++ q) := by
  rw [Above, resolve_path_append, hrest, List.append_nil]
  exact List.take_prefix _ _

/-- No name of the directory is in the path. -/
def Fresh (d : Directory) (q : Path) : Prop := ∀ c ∈ q, c ∉ d.names

theorem Fresh.of_prefix {q' : Path} (h : d.Fresh q) (hq : q' <+: q) : d.Fresh q' :=
  fun c hc => h c (hq.subset hc)

theorem Fresh.above_iff (h : d.Fresh q) : d.Above (d.path ++ q) ↔ (relative q).rest = [] := by
  refine ⟨fun ha => ?_, above_of_rest⟩
  rw [Above, resolve_path_append] at ha
  cases hrest : (relative q).rest with
  | nil => rfl
  | cons c rest =>
    have hc : c ∈ (relative q).rest := hrest ▸ .head rest
    exact absurd (ha.subset (List.mem_append_right _ hc)) (h c (mem_rest hc))

theorem Fresh.not_inside (h : d.Fresh q) (hups : (relative q).ups ≠ 0) : ¬d.Inside (d.path ++ q) := by
  rintro ⟨-, hpre, -⟩
  rw [resolve_path_append] at hpre
  have hpos : 0 < d.names.length := List.length_pos_iff.mpr d.ne_root
  have hlen : (d.names.take (d.names.length - (relative q).ups)).length < d.names.length := by
    rw [List.length_take]
    omega
  -- The first name that was climbed over would have to come from the path.
  obtain ⟨suffix, hs⟩ := hpre
  have hget := congrArg (·[(d.names.take (d.names.length - (relative q).ups)).length]?) hs
  simp only [List.getElem?_append_left hlen, List.getElem?_append_right (Nat.le_refl _),
    Nat.sub_self] at hget
  rw [List.getElem?_eq_getElem hlen] at hget
  have hmem : d.names[(d.names.take (d.names.length - (relative q).ups)).length] ∈
      (relative q).rest := List.mem_of_getElem? hget.symm
  exact h _ (mem_rest hmem) (List.getElem_mem hlen)

theorem exists_fresh (l : List (List Char)) : ∃ c, IsName c ∧ c ∉ l := by
  have hlong : ∀ c ∈ l, c.length ≤ (l.map List.length).sum :=
    fun c hc => List.le_sum_of_mem (List.mem_map_of_mem hc)
  refine ⟨List.replicate ((l.map List.length).sum + 3) 'x', ⟨?_, ?_, ?_⟩, fun hmem => ?_⟩
  · exact fun h => absurd (congrArg List.length h) (by simp)
  · exact fun h => absurd (congrArg List.length h) (by simp)
  · exact fun h => absurd (congrArg List.length h) (by simp)
  · have := hlong _ hmem
    rw [List.length_replicate] at this
    omega

/-- There are a directory and one in it whose names are not in a list. -/
theorem exists_fresh_child (l : List (List Char)) :
    ∃ d d' : Directory, (∃ c, d'.names = d.names ++ [c]) ∧ d.Fresh l ∧ d'.Fresh l := by
  obtain ⟨c, hc, hl⟩ := exists_fresh l
  refine ⟨⟨[c], ?_, List.cons_ne_nil c []⟩, ⟨[c, c], ?_, List.cons_ne_nil c [c]⟩, ⟨c, rfl⟩, ?_, ?_⟩
  · intro k hk
    rwa [List.mem_singleton.mp hk]
  · intro k hk
    have hk : k = c := by simpa using hk
    rwa [hk]
  · intro k hk hmem
    rw [List.mem_singleton.mp hmem] at hk
    exact hl hk
  · intro k hk hmem
    have hmem : k = c := by simpa using hmem
    rw [hmem] at hk
    exact hl hk

theorem not_inside_of_above {p : Path} (h : d.Above p) : ¬d.Inside p := by
  rintro ⟨-, hpre, hne⟩
  exact hne (h.eq_of_length (Nat.le_antisymm h.length_le hpre.length_le))

/-- An absolute path with other names is elsewhere. -/
theorem Fresh.not_inside_self (h : d.Fresh q) : ¬d.Inside q := by
  rintro ⟨-, hpre, -⟩
  obtain ⟨c, names, hnames⟩ := List.exists_cons_of_ne_nil d.ne_root
  have hc : c ∈ d.names := hnames ▸ .head names
  have hres : resolve q = (relative q).rest := by
    rw [resolve, resolveFrom_eq, List.take_nil, List.nil_append]
  exact h c (mem_rest (hres ▸ hpre.subset hc)) hc

end Directory
end LexicalPath
