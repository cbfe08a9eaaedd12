import Mathlib.Data.List.TakeWhile
import Mathlib.Logic.Function.Basic

/-!
# File systems

A file system is a graph of numbered nodes: directories with their entries, files and links. A path
is walked component by component, every link on the way is followed, and the number of links is
bounded. A directory is only ever added; `Extends` says what stays when some are.
-/

variable {ν : Type}

inductive FileSystem.Component (ν : Type)
  /-- Between two separators, or behind the last one. -/
  | empty
  | self
  | up
  | name (n : ν)

structure FileSystem.Route (ν : Type) where
  absolute : Bool
  components : List (Component ν)

inductive FileSystem.Node (ν : Type)
  | directory (entries : ν → Option Nat) (parent : Nat) (searchable : Bool)
  | file
  | link (target : Route ν)

def FileSystem.Node.isDirectory : Node ν → Bool
  | directory _ _ _ => true
  | _ => false

structure FileSystem (ν : Type) where
  node : Nat → Option (FileSystem.Node ν)
  next : Nat
  root : Nat
  cwd : Nat
  maxLinks : Nat
  fresh : ∀ i, next ≤ i → node i = none
  live : ∀ {d entries parent searchable}, node d = some (.directory entries parent searchable) →
    ∀ {n i}, entries n = some i → (node i).isSome
  parent : ∀ {d entries parent searchable}, node d = some (.directory entries parent searchable) →
    (node parent).any (·.isDirectory)
  root_directory : (node root).any (·.isDirectory)
  cwd_directory : (node cwd).any (·.isDirectory)

namespace FileSystem

def isDirectoryAt (fs : FileSystem ν) (i : Nat) : Bool := (fs.node i).any (·.isDirectory)

/-- Where a path goes on from `d` with a component. Anything but the empty one asks for the
permission to search `d`. -/
def step (fs : FileSystem ν) (d : Nat) (c : Component ν) : Option Nat :=
  match fs.node d with
  | some (.directory entries parent searchable) =>
    match c with
    | .empty => some d
    | .self => if searchable then some d else none
    | .up => if searchable then some parent else none
    | .name n => if searchable then entries n else none
  | _ => none

def linkAt (fs : FileSystem ν) (i : Nat) : Option (Route ν) :=
  match fs.node i with
  | some (.link target) => some target
  | _ => none

/-- Where a route starts that is met in the directory `d`. -/
def base (fs : FileSystem ν) (d : Nat) (r : Route ν) : Nat := if r.absolute then fs.root else d

/-- The node at the end of a path, with `links` links at most on the way. -/
def walk (fs : FileSystem ν) (links d : Nat) (cs : List (Component ν)) : Option Nat :=
  match cs with
  | [] => some d
  | c :: cs =>
    match fs.step d c with
    | none => none
    | some i =>
      match fs.linkAt i, links with
      | none, links => fs.walk links i cs
      | some _, 0 => none
      | some target, links + 1 => fs.walk links (fs.base d target) (target.components ++ cs)
termination_by (links, cs.length)

def resolve (fs : FileSystem ν) (r : Route ν) : Option Nat :=
  fs.walk fs.maxLinks (fs.base fs.cwd r) r.components

section Walk

variable {fs : FileSystem ν} {links d i : Nat} {c : Component ν} {cs : List (Component ν)}

theorem isDirectoryAt_iff : fs.isDirectoryAt d ↔
    ∃ entries parent searchable, fs.node d = some (.directory entries parent searchable) := by
  rw [isDirectoryAt]
  cases h : fs.node d with
  | none => simp
  | some x => cases x <;> simp [Node.isDirectory]

theorem isSome_of_isDirectoryAt (hd : fs.isDirectoryAt d) : (fs.node d).isSome := by
  obtain ⟨_, _, _, hd⟩ := isDirectoryAt_iff.mp hd
  rw [hd]
  rfl

/-- A path goes on from directories only, -/
theorem isDirectoryAt_of_step (h : fs.step d c = some i) : fs.isDirectoryAt d := by
  unfold step at h
  split at h
  · next hd => exact isDirectoryAt_iff.mpr ⟨_, _, _, hd⟩
  · cases h

/-- and to nodes that exist. -/
theorem isSome_of_step (h : fs.step d c = some i) : (fs.node i).isSome := by
  have hdir := isSome_of_isDirectoryAt (isDirectoryAt_of_step h)
  unfold step at h
  split at h
  · next entries parent searchable hd =>
    cases c with
    | empty => exact Option.some.inj h ▸ hdir
    | self =>
      obtain ⟨-, h⟩ := Option.ite_none_right_eq_some.mp h
      exact Option.some.inj h ▸ hdir
    | up =>
      obtain ⟨-, h⟩ := Option.ite_none_right_eq_some.mp h
      exact Option.some.inj h ▸ isSome_of_isDirectoryAt (fs.parent hd)
    | name n => exact fs.live hd (Option.ite_none_right_eq_some.mp h).2
  · cases h

theorem linkAt_of_isDirectoryAt (hd : fs.isDirectoryAt d) : fs.linkAt d = none := by
  obtain ⟨_, _, _, hd⟩ := isDirectoryAt_iff.mp hd
  rw [linkAt, hd]

theorem step_empty (hd : fs.isDirectoryAt d) : fs.step d .empty = some d := by
  obtain ⟨_, _, _, hd⟩ := isDirectoryAt_iff.mp hd
  rw [step, hd]

theorem walk_nil : fs.walk links d [] = some d := by
  rw [walk]

theorem walk_cons_of_linkAt_eq_none (h : fs.step d c = some i) (hi : fs.linkAt i = none) :
    fs.walk links d (c :: cs) = fs.walk links i cs := by
  rw [walk, h]
  simp only [hi]

theorem isDirectoryAt_of_walk_cons (h : fs.walk links d (c :: cs) = some i) :
    fs.isDirectoryAt d := by
  cases hstep : fs.step d c with
  | none =>
    rw [walk, hstep] at h
    cases h
  | some j => exact isDirectoryAt_of_step hstep

/-- Separators at the end stay in the directory. -/
theorem walk_replicate_empty (hd : fs.isDirectoryAt d) (k : Nat) :
    fs.walk links d (List.replicate k .empty) = some d := by
  induction k with
  | zero => exact walk_nil
  | succ k ih =>
    rw [List.replicate_succ,
      walk_cons_of_linkAt_eq_none (step_empty hd) (linkAt_of_isDirectoryAt hd), ih]

/-- A path is walked in two parts. -/
theorem walk_append (fs : FileSystem ν) (links d : Nat) (cs : List (Component ν)) :
    (∀ cs', fs.walk links d (cs ++ cs') = none) ∨
      ∃ links' e, fs.walk links d cs = some e ∧
        ∀ cs', fs.walk links d (cs ++ cs') = fs.walk links' e cs' := by
  fun_induction walk fs links d cs with
  | case1 links d => exact .inr ⟨links, d, rfl, fun _ => rfl⟩
  | case2 links d c cs hstep =>
    refine .inl fun cs' => ?_
    rw [List.cons_append, walk, hstep]
  | case3 d c cs i hstep links hlink ih =>
    refine ih.imp (fun ih cs' => ?_) fun ⟨links', e, he, ih⟩ => ⟨links', e, he, fun cs' => ?_⟩
    · exact (walk_cons_of_linkAt_eq_none hstep hlink).trans (ih cs')
    · exact (walk_cons_of_linkAt_eq_none hstep hlink).trans (ih cs')
  | case4 d c cs i hstep target hlink =>
    refine .inl fun cs' => ?_
    rw [List.cons_append, walk, hstep]
    simp only [hlink]
  | case5 d c cs i hstep target links hlink ih =>
    have hcons (cs' : List (Component ν)) : fs.walk (links + 1) d (c :: cs ++ cs') =
        fs.walk links (fs.base d target) (target.components ++ cs ++ cs') := by
      rw [List.cons_append, walk, hstep, List.append_assoc]
      simp only [hlink]
    refine ih.imp (fun ih cs' => ?_) fun ⟨links', e, he, ih⟩ => ⟨links', e, he, fun cs' => ?_⟩
    · exact (hcons cs').trans (ih cs')
    · exact (hcons cs').trans (ih cs')

/-- What is in front of a separator is a directory. -/
theorem walk_prefix {cs' : List (Component ν)} (h : fs.walk links d (cs ++ c :: cs') = some i) :
    ∃ e, fs.walk links d cs = some e ∧ fs.isDirectoryAt e ∧
      ∀ k, fs.walk links d (cs ++ List.replicate k .empty) = some e := by
  obtain hnone | ⟨links', e, he, happend⟩ := fs.walk_append links d cs
  · rw [hnone] at h
    cases h
  · rw [happend] at h
    have hdir := isDirectoryAt_of_walk_cons h
    exact ⟨e, he, hdir, fun k => (happend _).trans (walk_replicate_empty hdir k)⟩

theorem walk_append_of {e : Nat} (h : fs.walk links d cs = some e) :
    ∃ links', ∀ cs', fs.walk links d (cs ++ cs') = fs.walk links' e cs' := by
  obtain hnone | ⟨links', e', he, happend⟩ := fs.walk_append links d cs
  · have := hnone []
    rw [List.append_nil, h] at this
    cases this
  · obtain rfl := Option.some.inj (h.symm.trans he)
    exact ⟨links', happend⟩

/-- One more step to a directory, and separators behind it. -/
theorem walk_append_step {e : Nat} (h : fs.walk links d cs = some e) (hstep : fs.step e c = some i)
    (hi : fs.isDirectoryAt i) (k : Nat) :
    fs.walk links d (cs ++ c :: List.replicate k .empty) = some i := by
  obtain ⟨links', happend⟩ := walk_append_of h
  rw [happend, walk_cons_of_linkAt_eq_none hstep (linkAt_of_isDirectoryAt hi),
    walk_replicate_empty hi]

end Walk

/-! ## What stays -/

/-- A directory gets other entries for new nodes. -/
inductive Node.Grows (isNew : Nat → Prop) : Node ν → Node ν → Prop
  | directory {entries entries' : ν → Option Nat} {parent : Nat} {searchable : Bool}
    (kept : ∀ n i, entries n = some i → entries' n = some i)
    (added : ∀ n i, entries n = none → entries' n = some i → isNew i) :
    Grows isNew (directory entries parent searchable) (directory entries' parent searchable)
  | file : Grows isNew file file
  | link (target : Route ν) : Grows isNew (link target) (link target)

structure Extends (fs fs' : FileSystem ν) : Prop where
  root : fs'.root = fs.root
  cwd : fs'.cwd = fs.cwd
  maxLinks : fs'.maxLinks = fs.maxLinks
  node : ∀ {i x}, fs.node i = some x →
    ∃ x', fs'.node i = some x' ∧ Node.Grows (fun j => fs.node j = none) x x'

section Extends

variable {fs fs' fs'' : FileSystem ν} {links d i : Nat} {c : Component ν}
  {cs : List (Component ν)} {isNew isNew' : Nat → Prop} {x x' x'' : Node ν}

theorem Node.Grows.refl (x : Node ν) : Node.Grows isNew x x := by
  cases x with
  | directory entries parent searchable =>
    exact .directory (fun _ _ => id) fun n i h h' => nomatch h.symm.trans h'
  | file => exact .file
  | link target => exact .link target

theorem Node.Grows.trans (h : Node.Grows isNew x x') (h' : Node.Grows isNew' x' x'')
    (hnew : ∀ i, isNew' i → isNew i) : Node.Grows isNew x x'' := by
  cases h with
  | file => cases h'; exact .file
  | link => cases h'; exact .link _
  | @directory entries entries₁ _ _ kept added =>
    cases h' with
    | directory kept' added' =>
      refine .directory (fun n i h => kept' n i (kept n i h)) fun n i h h' => ?_
      cases h₁ : entries₁ n with
      | none => exact hnew i (added' n i h₁ h')
      | some j =>
        obtain rfl : j = i := Option.some.inj ((kept' n j h₁).symm.trans h')
        exact added n j h h₁

theorem Extends.refl (fs : FileSystem ν) : fs.Extends fs :=
  ⟨rfl, rfl, rfl, fun h => ⟨_, h, .refl _⟩⟩

theorem Extends.new (h : fs.Extends fs') (hi : fs'.node i = none) : fs.node i = none := by
  cases hx : fs.node i with
  | none => rfl
  | some x =>
    obtain ⟨x', hx', -⟩ := h.node hx
    rw [hi] at hx'
    cases hx'

theorem Extends.trans (h : fs.Extends fs') (h' : fs'.Extends fs'') : fs.Extends fs'' := by
  refine ⟨h'.root.trans h.root, h'.cwd.trans h.cwd, h'.maxLinks.trans h.maxLinks, fun hx => ?_⟩
  obtain ⟨x', hx', hgrows⟩ := h.node hx
  obtain ⟨x'', hx'', hgrows'⟩ := h'.node hx'
  exact ⟨x'', hx'', hgrows.trans hgrows' fun _ => h.new⟩

theorem Extends.directory (h : fs.Extends fs') (hd : fs.isDirectoryAt d) :
    fs'.isDirectoryAt d := by
  obtain ⟨_, _, _, hd⟩ := isDirectoryAt_iff.mp hd
  obtain ⟨_, hd', hgrows⟩ := h.node hd
  cases hgrows
  exact isDirectoryAt_iff.mpr ⟨_, _, _, hd'⟩

theorem Extends.step (h : fs.Extends fs') (hstep : fs.step d c = some i) :
    fs'.step d c = some i := by
  unfold FileSystem.step at hstep
  split at hstep
  · next hd =>
    obtain ⟨_, hd', hgrows⟩ := h.node hd
    cases hgrows with
    | directory kept added =>
      rw [FileSystem.step, hd']
      cases c with
      | name n =>
        obtain ⟨hsearchable, hstep⟩ := Option.ite_none_right_eq_some.mp hstep
        exact (if_pos hsearchable).trans (kept n i hstep)
      | _ => exact hstep
  · cases hstep

theorem Extends.linkAt (h : fs.Extends fs') (hi : (fs.node i).isSome) :
    fs'.linkAt i = fs.linkAt i := by
  obtain ⟨x, hx⟩ := Option.isSome_iff_exists.mp hi
  obtain ⟨x', hx', hgrows⟩ := h.node hx
  rw [FileSystem.linkAt, FileSystem.linkAt, hx, hx']
  cases hgrows <;> rfl

theorem Extends.base (h : fs.Extends fs') (d : Nat) (r : Route ν) :
    fs'.base d r = fs.base d r := by
  rw [FileSystem.base, FileSystem.base, h.root]

/-- What is found is still found. -/
theorem Extends.walk (h : fs.Extends fs') (hwalk : fs.walk links d cs = some i) :
    fs'.walk links d cs = some i := by
  fun_induction FileSystem.walk fs links d cs with
  | case1 links d => exact walk_nil.trans hwalk
  | case2 => cases hwalk
  | case3 d c cs j hstep links hlink ih =>
    have hlink' := (h.linkAt (isSome_of_step hstep)).trans hlink
    exact (walk_cons_of_linkAt_eq_none (h.step hstep) hlink').trans (ih hwalk)
  | case4 => cases hwalk
  | case5 d c cs j hstep target links hlink ih =>
    have hlink' := (h.linkAt (isSome_of_step hstep)).trans hlink
    rw [FileSystem.walk, h.step hstep]
    simp only [hlink']
    rw [h.base]
    exact ih hwalk

theorem Extends.resolve (h : fs.Extends fs') {r : Route ν} (hr : fs.resolve r = some i) :
    fs'.resolve r = some i := by
  rw [FileSystem.resolve, h.maxLinks, h.cwd, h.base]
  exact h.walk hr

end Extends

/-! ## A new directory -/

def Node.insert [DecidableEq ν] (n : ν) (i : Nat) : Node ν → Node ν
  | directory entries parent searchable =>
    directory (Function.update entries n (some i)) parent searchable
  | x => x

/-- The nodes with an empty directory for the name `n` in `d`. -/
def createdNode [DecidableEq ν] (fs : FileSystem ν) (d : Nat) (n : ν) (searchable : Bool)
    (i : Nat) : Option (Node ν) :=
  if i = fs.next then some (.directory (fun _ => none) d searchable)
  else if i = d then (fs.node i).map (·.insert n fs.next) else fs.node i

section Create

variable [DecidableEq ν] {fs fs' : FileSystem ν} {d i j : Nat} {n : ν} {searchable : Bool}

omit [DecidableEq ν] in
theorem ne_next (hi : (fs.node i).isSome) : i ≠ fs.next := by
  rintro rfl
  rw [fs.fresh _ le_rfl] at hi
  cases hi

theorem createdNode_next : fs.createdNode d n searchable fs.next =
    some (.directory (fun _ => none) d searchable) :=
  if_pos rfl

theorem createdNode_of_ne (hi : i ≠ fs.next) : fs.createdNode d n searchable i =
    if i = d then (fs.node i).map (·.insert n fs.next) else fs.node i :=
  if_neg hi

theorem isSome_createdNode (hi : (fs.node i).isSome) :
    (fs.createdNode d n searchable i).isSome := by
  rw [createdNode_of_ne (ne_next hi)]
  split
  · rw [Option.isSome_map]
    exact hi
  · exact hi

theorem isDirectory_insert (x : Node ν) : (x.insert n i).isDirectory = x.isDirectory := by
  cases x <;> rfl

theorem isDirectory_createdNode (hi : fs.isDirectoryAt i) :
    (fs.createdNode d n searchable i).any (·.isDirectory) := by
  rw [createdNode_of_ne (ne_next (isSome_of_isDirectoryAt hi))]
  split
  · simp only [Option.any_map, isDirectory_insert]
    exact hi
  · exact hi

/-- A directory after the creation is the new one, or one that has kept its place. -/
theorem createdNode_directory {entries : ν → Option Nat} {parent : Nat} {s : Bool}
    (h : fs.createdNode d n searchable i = some (.directory entries parent s)) :
    (i = fs.next ∧ parent = d ∧ ∀ m, entries m = none) ∨
      ∃ entries', fs.node i = some (.directory entries' parent s) ∧
        ∀ m j, entries m = some j → j = fs.next ∨ entries' m = some j := by
  by_cases hi : i = fs.next
  · rw [hi, createdNode_next] at h
    cases h
    exact .inl ⟨hi, rfl, fun _ => rfl⟩
  refine .inr ?_
  rw [createdNode_of_ne hi] at h
  split at h
  · obtain ⟨x, hx, hinsert⟩ := Option.map_eq_some_iff.mp h
    cases x with
    | directory entries' parent' s' =>
      cases hinsert
      refine ⟨entries', hx, fun m j hj => ?_⟩
      by_cases hm : m = n
      · rw [hm, Function.update_self] at hj
        exact .inl (Option.some.inj hj).symm
      · rw [Function.update_of_ne hm] at hj
        exact .inr hj
    | _ => cases hinsert
  · exact ⟨entries, h, fun _ _ => .inr⟩

/-- The file system with an empty directory for the name `n` in `d`. -/
def create (fs : FileSystem ν) (d : Nat) (hd : fs.isDirectoryAt d) (n : ν) (searchable : Bool) :
    FileSystem ν where
  node := fs.createdNode d n searchable
  next := fs.next + 1
  root := fs.root
  cwd := fs.cwd
  maxLinks := fs.maxLinks
  fresh i hi := by
    rw [createdNode_of_ne (by omega), fs.fresh i (by omega)]
    exact ite_self none
  live h m j hj := by
    obtain ⟨-, -, hempty⟩ | ⟨entries', hnode, hentries⟩ := createdNode_directory h
    · rw [hempty] at hj
      cases hj
    · obtain rfl | hj := hentries _ _ hj
      · rw [createdNode_next]
        rfl
      · exact isSome_createdNode (fs.live hnode hj)
  parent h := by
    obtain ⟨-, rfl, -⟩ | ⟨_, hnode, -⟩ := createdNode_directory h
    · exact isDirectory_createdNode hd
    · exact isDirectory_createdNode (fs.parent hnode)
  root_directory := isDirectory_createdNode fs.root_directory
  cwd_directory := isDirectory_createdNode fs.cwd_directory

/-- A directory in which a name is free. -/
def mayAdd (fs : FileSystem ν) (d : Nat) (n : ν) : Bool :=
  match fs.node d with
  | some (.directory entries _ true) => (entries n).isNone
  | _ => false

omit [DecidableEq ν] in
theorem mayAdd_iff : fs.mayAdd d n ↔
    ∃ entries parent, fs.node d = some (.directory entries parent true) ∧ entries n = none := by
  constructor
  · intro h
    unfold mayAdd at h
    split at h
    · next hd => exact ⟨_, _, hd, Option.isNone_iff_eq_none.mp h⟩
    · cases h
  · rintro ⟨entries, parent, hd, hn⟩
    rw [mayAdd, hd]
    exact Option.isNone_iff_eq_none.mpr hn

omit [DecidableEq ν] in
theorem isDirectoryAt_of_mayAdd (h : fs.mayAdd d n) : fs.isDirectoryAt d := by
  obtain ⟨entries, parent, hd, -⟩ := mayAdd_iff.mp h
  exact isDirectoryAt_iff.mpr ⟨entries, parent, true, hd⟩

def Component.isEmpty : Component ν → Bool
  | empty => true
  | _ => false

/-- `mkdir`: separators at the end say nothing. -/
def mkdir (fs : FileSystem ν) (searchable : Bool) (r : Route ν) : Option (FileSystem ν) :=
  match r.components.reverse.dropWhile (·.isEmpty) with
  | .name n :: parents =>
    match fs.walk fs.maxLinks (fs.base fs.cwd r) parents.reverse with
    | none => none
    | some d =>
      if h : fs.mayAdd d n then some (fs.create d (isDirectoryAt_of_mayAdd h) n searchable)
      else none
  | _ => none

/-- The node `i` is a new directory, and the only new node. -/
structure Adds (fs fs' : FileSystem ν) (i : Nat) : Prop where
  extends_ : fs.Extends fs'
  directory : fs'.isDirectoryAt i
  only : ∀ j, (fs'.node j).isSome → fs.node j = none → j = i

theorem Node.Grows.insert {isNew : Nat → Prop} {entries : ν → Option Nat} {parent : Nat} {s : Bool}
    (hn : entries n = none) (hi : isNew i) : Node.Grows isNew (.directory entries parent s)
      ((Node.directory entries parent s).insert n i) := by
  refine .directory (fun m j hm => ?_) fun m j hm hj => ?_
  · have hmn : m ≠ n := by
      rintro rfl
      cases hn.symm.trans hm
    rw [Function.update_of_ne hmn]
    exact hm
  · by_cases hmn : m = n
    · rw [hmn, Function.update_self] at hj
      exact Option.some.inj hj ▸ hi
    · rw [Function.update_of_ne hmn, hm] at hj
      cases hj

theorem extends_create (h : fs.mayAdd d n) :
    fs.Extends (fs.create d (isDirectoryAt_of_mayAdd h) n searchable) := by
  obtain ⟨entries, parent, hd, hn⟩ := mayAdd_iff.mp h
  refine ⟨rfl, rfl, rfl, fun {i x} hi => ?_⟩
  have hne : i ≠ fs.next := ne_next (Option.isSome_of_eq_some hi)
  by_cases hid : i = d
  · subst hid
    obtain rfl := Option.some.inj (hd.symm.trans hi)
    refine ⟨_, ?_, .insert hn (fs.fresh _ le_rfl)⟩
    exact (createdNode_of_ne hne).trans ((if_pos rfl).trans (congrArg (Option.map _) hi))
  · exact ⟨x, (createdNode_of_ne hne).trans ((if_neg hid).trans hi), .refl x⟩

theorem adds_create (h : fs.mayAdd d n) :
    fs.Adds (fs.create d (isDirectoryAt_of_mayAdd h) n searchable) fs.next := by
  refine ⟨extends_create h, isDirectoryAt_iff.mpr ⟨_, _, _, createdNode_next⟩, fun j hj hnone => ?_⟩
  by_contra hne
  have hj' : fs.createdNode d n searchable j = none := by
    rw [createdNode_of_ne hne, hnone]
    exact ite_self none
  exact Option.isSome_iff_ne_none.mp hj hj'

theorem step_create (h : fs.mayAdd d n) :
    (fs.create d (isDirectoryAt_of_mayAdd h) n searchable).step d (.name n) = some fs.next := by
  obtain ⟨entries, parent, hd, -⟩ := mayAdd_iff.mp h
  have hnode : fs.createdNode d n searchable d =
      some (.directory (Function.update entries n (some fs.next)) parent true) := by
    rw [createdNode_of_ne (ne_next (Option.isSome_of_eq_some hd)), if_pos rfl, hd]
    rfl
  rw [step, create]
  simp only [hnode, Function.update_self, if_pos]

omit [DecidableEq ν] in
/-- The last name of a path, in front of separators. -/
theorem components_of_dropWhile {cs parents : List (Component ν)}
    (h : cs.reverse.dropWhile (·.isEmpty) = .name n :: parents) :
    ∃ k, cs = parents.reverse ++ .name n :: List.replicate k .empty := by
  have hempty : ∀ c ∈ cs.reverse.takeWhile (·.isEmpty), c = .empty := fun c hc => by
    have hc := List.mem_takeWhile_imp hc
    cases c <;> first | rfl | cases hc
  obtain ⟨k, hk⟩ : ∃ k, cs.reverse.takeWhile (·.isEmpty) = List.replicate k .empty :=
    ⟨_, List.eq_replicate_of_mem hempty⟩
  refine ⟨k, List.reverse_inj.mp ?_⟩
  rw [← List.takeWhile_append_dropWhile (p := (·.isEmpty)) (l := cs.reverse), h, hk]
  simp

/-- The path that was asked for leads to the new directory. -/
theorem mkdir_eq_some {r : Route ν} (h : fs.mkdir searchable r = some fs') :
    fs.Adds fs' fs.next ∧ fs'.resolve r = some fs.next := by
  unfold mkdir at h
  split at h
  · next n parents hparents =>
    split at h
    · cases h
    · next d hd =>
      obtain ⟨hmay, h⟩ := Option.dite_none_right_eq_some.mp h
      obtain rfl := Option.some.inj h
      have hadds : fs.Adds (fs.create d _ n searchable) fs.next := adds_create hmay
      refine ⟨hadds, ?_⟩
      obtain ⟨k, hk⟩ := components_of_dropWhile hparents
      have hwalk := walk_append_step (hadds.extends_.walk hd) (step_create hmay) hadds.directory k
      rw [resolve, hk]
      exact hwalk
  · cases h

end Create

end FileSystem
