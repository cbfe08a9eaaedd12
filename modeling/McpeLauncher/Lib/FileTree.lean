import Mathlib.Data.List.Nodup
import Mathlib.Logic.Function.Basic

/-!
# Trees of files

A tree is a file with its content or a directory. What a tree holds is asked by path; `updateEach`
replaces entries of a directory one after the other, each by what a fallible function makes of it.
-/

namespace FileTree

variable {α ν ε : Type} [DecidableEq ν]

/-- The names in a directory. -/
structure Names (ν : Type) where
  list : List ν
  nodup : list.Nodup

/-- `child` is asked for the names of the directory only. -/
inductive Node (ν α : Type)
  | file (content : α)
  | dir (names : Names ν) (child : ν → Node ν α)

def Names.insert (names : Names ν) (n : ν) : Names ν :=
  if h : n ∈ names.list then names
  else ⟨n :: names.list, List.nodup_cons.mpr ⟨h, names.nodup⟩⟩

@[simp] theorem Names.mem_insert {names : Names ν} {n k : ν} :
    k ∈ (names.insert n).list ↔ k = n ∨ k ∈ names.list := by
  unfold insert
  split
  · rename_i h
    exact ⟨.inr, fun hk => hk.elim (fun he => he ▸ h) id⟩
  · exact List.mem_cons

namespace Node

/-- The entry of a directory. -/
def entry : Node ν α → ν → Option (Node ν α)
  | file _, _ => none
  | dir names child, n => if n ∈ names.list then some (child n) else none

/-- The content of the file at a path. -/
def fileAt : Node ν α → List ν → Option α
  | file c, [] => some c
  | file _, _ :: _ => none
  | dir _ _, [] => none
  | dir names child, n :: path => if n ∈ names.list then (child n).fileAt path else none

/-- The directory with another entry. -/
def setEntry : Node ν α → ν → Node ν α → Node ν α
  | file c, _, _ => file c
  | dir names child, n, t => dir (names.insert n) (Function.update child n t)

def IsDir : Node ν α → Prop
  | file _ => False
  | dir _ _ => True

omit [DecidableEq ν] in
theorem isDir_dir (names : Names ν) (child : ν → Node ν α) : (dir names child).IsDir := trivial

theorem IsDir.setEntry {t : Node ν α} (h : t.IsDir) (n : ν) (e : Node ν α) : (t.setEntry n e).IsDir := by
  cases t with
  | file c => exact h
  | dir names child => trivial

theorem IsDir.entry_setEntry {t : Node ν α} (h : t.IsDir) (n : ν) (e : Node ν α) (k : ν) :
    (t.setEntry n e).entry k = if k = n then some e else t.entry k := by
  cases t with
  | file c => exact h.elim
  | dir names child =>
    simp only [Node.setEntry, entry, Names.mem_insert, Function.update_apply]
    by_cases hk : k = n
    · simp [hk]
    · simp [hk]

end Node

open Node

/-- The content of the file at a path of a tree that may be missing. -/
def fileAt? (t : Option (Node ν α)) (path : List ν) : Option α := t.bind (·.fileAt path)

@[simp] theorem fileAt?_none (path : List ν) : fileAt? (none : Option (Node ν α)) path = none := rfl

@[simp] theorem fileAt?_some (t : Node ν α) (path : List ν) : fileAt? (some t) path = t.fileAt path :=
  rfl

theorem Node.IsDir.fileAt_nil {t : Node ν α} (h : t.IsDir) : t.fileAt [] = none := by
  cases t with
  | file c => exact h.elim
  | dir names child => rfl

theorem Node.fileAt_cons (t : Node ν α) (n : ν) (path : List ν) :
    t.fileAt (n :: path) = fileAt? (t.entry n) path := by
  cases t with
  | file c => rfl
  | dir names child =>
    simp only [fileAt, entry]
    split <;> rfl

/-- All files of `s` are in `t`, with their contents. -/
def Within (s t : Option (Node ν α)) : Prop := ∀ path c, fileAt? s path = some c → fileAt? t path = some c

/-- `t'` holds the files of `s`, and those of `t` at the other paths. -/
def Overlay (s t t' : Option (Node ν α)) : Prop :=
  Within s t' ∧ ∀ path c, fileAt? s path = none → fileAt? t path = some c → fileAt? t' path = some c

theorem within_none (t : Option (Node ν α)) : Within none t := by
  intro path c h
  cases h

/-- Where nothing was, the tree itself is the overlay. -/
theorem overlay_none (s : Option (Node ν α)) : Overlay s none s := by
  refine ⟨fun path c h => h, fun path c _ h => ?_⟩
  cases h

/-- A tree that does not change is an overlay exactly if it has the files already. -/
theorem overlay_unchanged_iff (s t : Option (Node ν α)) : Overlay s t t ↔ Within s t :=
  ⟨And.left, fun h => ⟨h, fun _ _ _ ht => ht⟩⟩

/-- Directories are overlaid entry by entry. -/
theorem overlay_dir_iff {s t t' : Node ν α} (hs : s.IsDir) (ht : t.IsDir) :
    Overlay (some s) (some t) (some t') ↔ ∀ n, Overlay (s.entry n) (t.entry n) (t'.entry n) := by
  constructor
  · intro h n
    constructor
    · intro path c hc
      rw [← fileAt_cons] at hc ⊢
      exact h.1 (n :: path) c hc
    · intro path c hc hold
      rw [← fileAt_cons] at hc hold ⊢
      exact h.2 (n :: path) c hc hold
  · intro h
    constructor
    · intro path c hc
      cases path with
      | nil =>
        rw [fileAt?_some, hs.fileAt_nil] at hc
        cases hc
      | cons n path =>
        rw [fileAt?_some, fileAt_cons] at hc ⊢
        exact (h n).1 path c hc
    · intro path c hc hold
      cases path with
      | nil =>
        rw [fileAt?_some, ht.fileAt_nil] at hold
        cases hold
      | cons n path =>
        rw [fileAt?_some, fileAt_cons] at hc hold ⊢
        exact (h n).2 path c hc hold

/-! ## Entries one after the other -/

/-- Each of the entries becomes what `item` makes of it; the first failure ends the loop. -/
def updateEach (item : ν → Option (Node ν α) → Except ε (Node ν α)) :
    List ν → Node ν α → Except ε (Node ν α)
  | [], t => .ok t
  | n :: ns, t =>
    match item n (t.entry n) with
    | .error e => .error e
    | .ok e => updateEach item ns (t.setEntry n e)

variable {item : ν → Option (Node ν α) → Except ε (Node ν α)} {ns : List ν} {t t' : Node ν α}

/-- The entries of the result. -/
theorem updateEach_entry (ht : t.IsDir) (hns : ns.Nodup) (h : updateEach item ns t = .ok t') :
    t'.IsDir ∧ ∀ n, (n ∈ ns → ∃ e, item n (t.entry n) = .ok e ∧ t'.entry n = some e) ∧
      (n ∉ ns → t'.entry n = t.entry n) := by
  induction ns generalizing t with
  | nil =>
    cases h
    exact ⟨ht, fun n => ⟨fun hn => absurd hn List.not_mem_nil, fun _ => rfl⟩⟩
  | cons k ns ih =>
    obtain ⟨hk, hns⟩ := List.nodup_cons.mp hns
    rw [updateEach] at h
    split at h
    · cases h
    rename_i e he
    obtain ⟨ht', hentry⟩ := ih (ht.setEntry k e) hns h
    refine ⟨ht', fun n => ⟨fun hn => ?_, fun hn => ?_⟩⟩
    · rcases List.mem_cons.mp hn with rfl | hn
      · refine ⟨e, he, ?_⟩
        rw [(hentry n).2 hk, ht.entry_setEntry, if_pos rfl]
      · have hne : n ≠ k := fun heq => hk (heq ▸ hn)
        have := (hentry n).1 hn
        rwa [ht.entry_setEntry, if_neg hne] at this
    · rw [List.mem_cons, not_or] at hn
      rw [(hentry n).2 hn.2, ht.entry_setEntry, if_neg hn.1]

/-- The loop fails exactly if one of the entries does. -/
theorem updateEach_error_iff (ht : t.IsDir) (hns : ns.Nodup) :
    (∃ e, updateEach item ns t = .error e) ↔ ∃ n ∈ ns, ∃ e, item n (t.entry n) = .error e := by
  induction ns generalizing t with
  | nil =>
    constructor
    · rintro ⟨e, he⟩
      cases he
    · rintro ⟨n, hn, -⟩
      exact absurd hn List.not_mem_nil
  | cons k ns ih =>
    obtain ⟨hk, hns⟩ := List.nodup_cons.mp hns
    rw [updateEach]
    cases hitem : item k (t.entry k) with
    | error e => exact ⟨fun _ => ⟨k, .head ns, e, hitem⟩, fun _ => ⟨e, rfl⟩⟩
    | ok e =>
      simp only
      rw [ih (ht.setEntry k e) hns]
      have hother : ∀ n ∈ ns, (t.setEntry k e).entry n = t.entry n := by
        intro n hn
        have hne : n ≠ k := fun heq => hk (heq ▸ hn)
        rw [ht.entry_setEntry, if_neg hne]
      constructor
      · rintro ⟨n, hn, e', he'⟩
        exact ⟨n, .tail k hn, e', hother n hn ▸ he'⟩
      · rintro ⟨n, hn, e', he'⟩
        rcases List.mem_cons.mp hn with rfl | hn
        · rw [hitem] at he'
          cases he'
        · exact ⟨n, hn, e', (hother n hn).symm ▸ he'⟩

end FileTree
