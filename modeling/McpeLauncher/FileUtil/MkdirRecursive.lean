import McpeLauncher.FileUtil.FindInPath
import McpeLauncher.Lib.FileSystem
import McpeLauncher.Lib.Terminated

/-!
# Making directories

`FileUtil::getParent` and `FileUtil::mkdirRecursive`. The recursion goes up to a directory that is
there, and it is never asked whether the path has become empty on the way.
-/

namespace McpeLauncher.FileUtil

open FileSystem (Component Route)

/-- Files, by the bytes of their names. -/
abbrev Files := FileSystem Bytes

/-- What else the system looks at: the longest path, and whether it grants a directory that is asked
for, and with which permission to search it. -/
structure System where
  pathMax : Nat
  mayCreate : Files → Bytes → Option Bool

def componentOf (s : Bytes) : Component Bytes :=
  if s = [] then .empty
  else if s = [dot] then .self
  else if s = [dot, dot] then .up
  else .name s

def route (path : Bytes) : Route Bytes :=
  ⟨path.head? = some slash, (path.splitOn slash).map componentOf⟩

namespace System

variable (os : System)

/-- A path the system takes: neither empty nor too long. -/
def Takes (path : Bytes) : Prop := path ≠ [] ∧ path.length < os.pathMax
  deriving Decidable

def resolve (fs : Files) (path : Bytes) : Option Nat :=
  if os.Takes path then fs.resolve (route path) else none

def mkdir (fs : Files) (path : Bytes) : Option Files :=
  if os.Takes path then
    (os.mayCreate fs path).bind fun searchable => fs.mkdir searchable (route path)
  else none

end System

variable (os : System)

/-- `access` finds the path. -/
def exists_ (fs : Files) (path : Bytes) : Bool := (os.resolve fs (cStr path)).isSome

def isDirectory (fs : Files) (path : Bytes) : Bool :=
  (os.resolve fs (cStr path)).any fs.isDirectoryAt

def rfind (b : UInt8) : Bytes → Option Nat
  | [] => none
  | a :: s =>
    match rfind b s with
    | some i => some (i + 1)
    | none => if a = b then some 0 else none

/-- Back over the slashes in front of a position. -/
def stripSlashes (path : Bytes) : Nat → Nat
  | 0 => 0
  | i + 1 => if path[i]? = some slash then stripSlashes path i else i + 1

theorem not_mem_of_rfind {b : UInt8} {s : Bytes} (h : rfind b s = none) : b ∉ s := by
  induction s with
  | nil => exact List.not_mem_nil
  | cons a s ih =>
    rw [rfind] at h
    cases hs : rfind b s with
    | some i =>
      rw [hs] at h
      cases h
    | none =>
      rw [hs] at h
      exact List.not_mem_cons_of_ne_of_not_mem
        (fun hb => Option.some_ne_none _ ((if_pos hb.symm).symm.trans h)) (ih hs)

theorem split_of_rfind {b : UInt8} {s : Bytes} {i : Nat} (h : rfind b s = some i) :
    ∃ l t, s = l ++ b :: t ∧ l.length = i ∧ b ∉ t := by
  induction s generalizing i with
  | nil => cases h
  | cons a s ih =>
    rw [rfind] at h
    cases hs : rfind b s with
    | some j =>
      rw [hs] at h
      obtain rfl := Option.some.inj h
      obtain ⟨l, t, rfl, rfl, ht⟩ := ih hs
      exact ⟨a :: l, t, rfl, rfl, ht⟩
    | none =>
      rw [hs] at h
      obtain ⟨rfl, hi⟩ := Option.ite_none_right_eq_some.mp h
      obtain rfl := Option.some.inj hi
      exact ⟨[], s, rfl, rfl, not_mem_of_rfind hs⟩

theorem getElem?_of_rfind {b : UInt8} {s : Bytes} {i : Nat} (h : rfind b s = some i) :
    s[i]? = some b := by
  obtain ⟨l, t, rfl, rfl, -⟩ := split_of_rfind h
  simp

/-- A slash is left at the position. -/
theorem getElem?_stripSlashes {path : Bytes} {i : Nat} (h : path[i]? = some slash) :
    path[stripSlashes path i]? = some slash := by
  induction i with
  | zero => exact h
  | succ i ih =>
    rw [stripSlashes]
    split
    · next hi => exact ih hi
    · exact h

theorem append_of_rfind {path : Bytes} {iof : Nat} (h : rfind slash path = some iof) :
    ∃ t, path = path.take (stripSlashes path iof) ++ slash :: t := by
  obtain ⟨hlt, hslash⟩ := List.getElem?_eq_some_iff.mp (getElem?_stripSlashes (getElem?_of_rfind h))
  refine ⟨path.drop (stripSlashes path iof + 1), ?_⟩
  rw [← hslash, List.getElem_cons_drop, List.take_append_drop]

theorem length_lt_of_append {l t : Bytes} {b : UInt8} : l.length < (l ++ b :: t).length := by
  rw [List.length_append, List.length_cons]
  omega

def getParent (path : Bytes) : Bytes :=
  match _h : rfind slash path with
  | none => []
  | some iof =>
    let endsWithSlash := iof = path.length - 1
    let ret := path.take (stripSlashes path iof)
    if endsWithSlash then getParent ret else ret
termination_by path.length
decreasing_by
  obtain ⟨t, ht⟩ := append_of_rfind _h
  exact Nat.lt_of_lt_of_eq length_lt_of_append (congrArg List.length ht.symm)

def notADirectory : Bytes := "File exists and is not a directory: ".toUTF8.toList
def mkdirFailed : Bytes := "mkdir failed, path = ".toUTF8.toList

/-- The errors that are thrown, and the files behind the call; none without the fuel for its
recursion. -/
def mkdirRecursive : Nat → Files → Bytes → Option (Except Bytes Unit × Files)
  | 0, _, _ => none
  | fuel + 1, fs, path =>
    if isDirectory os fs path then some (.ok (), fs)
    else if exists_ os fs path then some (.error (notADirectory ++ path), fs)
    else
      match mkdirRecursive fuel fs (getParent path) with
      | none => none
      | some (.error e, fs) => some (.error e, fs)
      | some (.ok (), fs) =>
        match os.mkdir fs (cStr path) with
        | none => some (.error (mkdirFailed ++ path), fs)
        | some fs => some (.ok (), fs)

/-! ## Ancestors -/

/-- A path up to a slash, or with it. -/
def Ancestor (q path : Bytes) : Prop :=
  q ≠ [] ∧ ∃ l t, path = l ++ slash :: t ∧ (q = l ∨ q = l ++ [slash])

/-- What the recursion asks for, down to the empty path. -/
theorem getParent_cases (path : Bytes) :
    getParent path = [] ∨ ∃ t, path = getParent path ++ slash :: t := by
  fun_induction getParent path with
  | case1 => exact .inl rfl
  | case2 path iof h _ ret _ ih =>
    obtain ⟨t, ht⟩ := append_of_rfind h
    refine ih.imp_right fun ⟨t', ht'⟩ => ⟨t' ++ slash :: t, ?_⟩
    rw [← List.cons_append, ← List.append_assoc, ← ht', ← ht]
  | case3 path iof h _ ret _ => exact .inr (append_of_rfind h)

theorem length_getParent_lt {path : Bytes} (h : path ≠ []) :
    (getParent path).length < path.length := by
  obtain hnil | ⟨t, ht⟩ := getParent_cases path
  · rw [hnil]
    exact List.length_pos_iff.mpr h
  · exact Nat.lt_of_lt_of_eq length_lt_of_append (congrArg List.length ht.symm)

def lineage (path : Bytes) : List Bytes :=
  if _h : path = [] then [] else path :: lineage (getParent path)
termination_by path.length
decreasing_by exact length_getParent_lt _h

/-- What the directories of a run are for. -/
structure Made (fs fs' : Files) (path : Bytes) : Prop where
  directories : ∀ q, q = path ∨ Ancestor q path → isDirectory os fs' q
  extends_ : fs.Extends fs'
  created : ∀ i, (fs'.node i).isSome → fs.node i = none →
    ∃ q, (q = path ∨ Ancestor q path) ∧ os.resolve fs' (cStr q) = some i

section Ancestors

variable {os} {fs fs' : Files} {path q q' : Bytes} {i : Nat}

theorem Ancestor.append (h : Ancestor q q') (t : Bytes) : Ancestor q (q' ++ slash :: t) := by
  obtain ⟨hq, l, t', rfl, hl⟩ := h
  exact ⟨hq, l, t' ++ slash :: t, by rw [List.append_assoc, List.cons_append], hl⟩

theorem ancestor_of_mem_lineage (h : q ∈ lineage path) : q = path ∨ Ancestor q path := by
  fun_induction lineage path with
  | case1 => cases h
  | case2 path hpath ih =>
    refine (List.mem_cons.mp h).imp_right fun h => ?_
    obtain hnil | ⟨t, ht⟩ := getParent_cases path
    · rw [hnil, lineage] at h
      cases h
    · rw [ht]
      obtain rfl | hq := ih h
      · have hq : getParent path ≠ [] := fun hnil => by
          rw [hnil, lineage] at h
          cases h
        exact ⟨hq, _, t, rfl, .inl rfl⟩
      · exact hq.append t

theorem System.resolve_eq_some (h : os.resolve fs path = some i) :
    os.Takes path ∧ fs.resolve (route path) = some i :=
  Option.ite_none_right_eq_some.mp h

theorem components_route_append (l t : Bytes) : (route (l ++ slash :: t)).components =
    (route l).components ++ (route t).components := by
  simp only [route, List.splitOn_append_cons_self, List.map_append]

theorem components_route_ne_nil (t : Bytes) : (route t).components ≠ [] :=
  fun h => List.splitOn_ne_nil slash t (List.map_eq_nil_iff.mp h)

/-- The route of an ancestor, with the separator that may stand behind it. -/
theorem Ancestor.route (hq : Ancestor q path) : ∃ l t k,
    (route path).components = (route l).components ++ (route t).components ∧
      (route q).components = (route l).components ++ List.replicate k .empty ∧
      (route q).absolute = (route path).absolute ∧ q.length ≤ path.length := by
  obtain ⟨hne, l, t, rfl, rfl | rfl⟩ := hq
  · refine ⟨q, t, 0, components_route_append q t, (List.append_nil _).symm, ?_, ?_⟩
    · rw [FileUtil.route, FileUtil.route, List.head?_append_of_ne_nil q hne]
    · exact Nat.le_of_lt length_lt_of_append
  · refine ⟨l, t, 1, components_route_append l t, components_route_append l [], ?_, ?_⟩
    · cases l <;> rfl
    · rw [List.length_append, List.length_append]
      exact Nat.add_le_add_left (Nat.le_add_left 1 t.length) _

/-- Every ancestor of a path that is there is a directory. -/
theorem Ancestor.resolve (hq : Ancestor q path) (h : os.resolve fs path = some i) :
    ∃ j, os.resolve fs q = some j ∧ fs.isDirectoryAt j := by
  obtain ⟨htakes, hresolve⟩ := System.resolve_eq_some h
  obtain ⟨l, t, k, hpath, hroute, habs, hlength⟩ := hq.route
  obtain ⟨c, cs, hcs⟩ := List.exists_cons_of_ne_nil (components_route_ne_nil t)
  rw [FileSystem.resolve, hpath, hcs] at hresolve
  obtain ⟨e, -, hdir, hwalk⟩ := FileSystem.walk_prefix hresolve
  refine ⟨e, ?_, hdir⟩
  rw [System.resolve, if_pos ⟨hq.1, Nat.lt_of_le_of_lt hlength htakes.2⟩, FileSystem.resolve,
    hroute, FileSystem.base, habs]
  exact hwalk k

theorem cStr_append_of_mem {l : Bytes} (h : 0 ∈ l) (t : Bytes) : cStr (l ++ t) = cStr l :=
  Terminated.upTo_append_of_mem h t

theorem cStr_append_of_not_mem {l : Bytes} (h : 0 ∉ l) (t : Bytes) :
    cStr (l ++ t) = l ++ cStr t :=
  Terminated.upTo_append_of_not_mem h t

theorem cStr_of_not_mem {l : Bytes} (h : 0 ∉ l) : cStr l = l := Terminated.upTo_of_not_mem h

theorem cStr_append_zero (l t : Bytes) : cStr (l ++ 0 :: t) = cStr l :=
  Terminated.upTo_append_terminator l t

/-- A path that is cut at a zero keeps its ancestors, or is one of them. -/
theorem Ancestor.cStr (hq : Ancestor q path) :
    FileUtil.cStr q = FileUtil.cStr path ∨ Ancestor (FileUtil.cStr q) (FileUtil.cStr path) := by
  obtain ⟨hne, l, t, rfl, hl⟩ := hq
  by_cases h : 0 ∈ l
  · left
    rw [cStr_append_of_mem h]
    obtain rfl | rfl := hl
    · rfl
    · exact cStr_append_of_mem h _
  · right
    have hslash : FileUtil.cStr (slash :: t) = slash :: FileUtil.cStr t := rfl
    have hcq : FileUtil.cStr q = q := by
      obtain rfl | rfl := hl
      · exact cStr_of_not_mem h
      · rw [cStr_append_of_not_mem h]
        rfl
    rw [cStr_append_of_not_mem h, hslash, hcq]
    exact ⟨hne, l, _, rfl, hl⟩

theorem isDirectory_iff :
    isDirectory os fs path ↔ ∃ i, os.resolve fs (cStr path) = some i ∧ fs.isDirectoryAt i := by
  rw [isDirectory, Option.any_eq_true]

theorem exists_of_isDirectory (h : isDirectory os fs path) : exists_ os fs path := by
  obtain ⟨i, hi, -⟩ := isDirectory_iff.mp h
  exact Option.isSome_of_eq_some hi

theorem Ancestor.isDirectory (hq : Ancestor q path) (h : isDirectory os fs path) :
    FileUtil.isDirectory os fs q := by
  obtain ⟨i, hi, hdir⟩ := isDirectory_iff.mp h
  obtain heq | hq := hq.cStr
  · exact isDirectory_iff.mpr ⟨i, heq ▸ hi, hdir⟩
  · exact isDirectory_iff.mpr (hq.resolve hi)

end Ancestors

/-! ## Runs -/

section Runs

variable {os} {fs fs' : Files} {path q : Bytes} {i fuel : Nat}

theorem System.resolve_extends (h : fs.Extends fs') (hi : os.resolve fs path = some i) :
    os.resolve fs' path = some i := by
  obtain ⟨htakes, hi⟩ := System.resolve_eq_some hi
  exact (if_pos htakes).trans (h.resolve hi)

theorem System.mkdir_eq_some (h : os.mkdir fs path = some fs') :
    fs.Adds fs' fs.next ∧ os.resolve fs' path = some fs.next := by
  obtain ⟨htakes, h⟩ := Option.ite_none_right_eq_some.mp h
  obtain ⟨searchable, -, h⟩ := Option.bind_eq_some_iff.mp h
  obtain ⟨hadds, hresolve⟩ := FileSystem.mkdir_eq_some h
  exact ⟨hadds, (if_pos htakes).trans hresolve⟩

theorem getParent_nil : getParent [] = [] := by
  rw [getParent]
  rfl

theorem lineage_nil : lineage [] = [] := by
  rw [lineage]
  rfl

theorem lineage_of_ne_nil (h : path ≠ []) : lineage path = path :: lineage (getParent path) := by
  rw [lineage, dif_neg h]

/-- The recursion leaves the lineage only where the path is empty. -/
theorem mem_lineage_of_mem_getParent (h : q ∈ lineage (getParent path)) : q ∈ lineage path := by
  by_cases hpath : path = []
  · rw [hpath, getParent_nil] at h
    exact hpath ▸ h
  · rw [lineage_of_ne_nil hpath]
    exact List.mem_cons_of_mem _ h

theorem exists_nil : exists_ os fs [] = false := by
  rw [exists_, System.resolve, if_neg (fun h => h.1 rfl)]
  rfl

/-- A call for a path that is not there is the call for its parent, and `mkdir`. -/
theorem mkdirRecursive_succ (h : exists_ os fs path = false) (fuel : Nat) :
    mkdirRecursive os (fuel + 1) fs path =
      match mkdirRecursive os fuel fs (getParent path) with
      | none => none
      | some (.error e, fs) => some (.error e, fs)
      | some (.ok (), fs) =>
        match os.mkdir fs (cStr path) with
        | none => some (.error (mkdirFailed ++ path), fs)
        | some fs => some (.ok (), fs) := by
  have hdir : isDirectory os fs path ≠ true := fun hdir => by
    rw [exists_of_isDirectory hdir] at h
    cases h
  rw [mkdirRecursive, if_neg hdir, if_neg (by rw [h]; exact Bool.false_ne_true)]

/-- Nothing of the lineage is there: the recursion goes on from the empty path to itself. -/
theorem mkdirRecursive_eq_none (h : ∀ q ∈ lineage path, exists_ os fs q = false) (fuel : Nat) :
    mkdirRecursive os fuel fs path = none := by
  induction fuel generalizing path with
  | zero => rfl
  | succ fuel ih =>
    have hpath : exists_ os fs path = false := by
      by_cases hpath : path = []
      · rw [hpath, exists_nil]
      · exact h path (lineage_of_ne_nil hpath ▸ List.mem_cons_self)
    rw [mkdirRecursive_succ hpath, ih fun q hq => h q (mem_lineage_of_mem_getParent hq)]

/-- A call returns if something of the lineage is there. -/
theorem mkdirRecursive_returns (h : ∃ q ∈ lineage path, exists_ os fs q) :
    ∃ fuel r, mkdirRecursive os fuel fs path = some r := by
  fun_induction lineage path with
  | case1 =>
    obtain ⟨q, hq, -⟩ := h
    cases hq
  | case2 path hne ih =>
    cases hpath : exists_ os fs path with
    | true =>
      refine ⟨1, ?_⟩
      rw [mkdirRecursive, if_pos hpath]
      split <;> exact ⟨_, rfl⟩
    | false =>
      obtain ⟨q, hq, hexists⟩ := h
      obtain rfl | hq := List.mem_cons.mp hq
      · cases hpath.symm.trans hexists
      · obtain ⟨fuel, r, hr⟩ := ih ⟨q, hq, hexists⟩
        refine ⟨fuel + 1, ?_⟩
        rw [mkdirRecursive_succ hpath, hr]
        obtain ⟨e | ⟨⟩, fs'⟩ := r
        · exact ⟨_, rfl⟩
        · dsimp only
          split <;> exact ⟨_, rfl⟩

/-- The directory that is asked for, and every new node at a path of the lineage. -/
structure MadeLineage (os : System) (fs fs' : Files) (path : Bytes) : Prop where
  directory : isDirectory os fs' path
  extends_ : fs.Extends fs'
  created : ∀ i, (fs'.node i).isSome → fs.node i = none →
    ∃ q ∈ lineage path, os.resolve fs' (cStr q) = some i

theorem MadeLineage.refl (h : isDirectory os fs path) : MadeLineage os fs fs path :=
  ⟨h, .refl fs, fun i hi hnone => by
    rw [hnone] at hi
    cases hi⟩

theorem ne_nil_of_takes_cStr (h : os.Takes (cStr path)) : path ≠ [] := by
  rintro rfl
  exact h.1 rfl

/-- One call of `mkdir`, behind the call for the parent. -/
theorem MadeLineage.mkdir {fs₁ : Files} (h : MadeLineage os fs fs₁ (getParent path))
    (hmkdir : os.mkdir fs₁ (cStr path) = some fs') : MadeLineage os fs fs' path := by
  obtain ⟨hadds, hresolve⟩ := System.mkdir_eq_some hmkdir
  have hpath := ne_nil_of_takes_cStr (System.resolve_eq_some hresolve).1
  refine ⟨isDirectory_iff.mpr ⟨_, hresolve, hadds.directory⟩, h.extends_.trans hadds.extends_,
    fun i hi hnone => ?_⟩
  rw [lineage_of_ne_nil hpath]
  cases hi₁ : fs₁.node i with
  | none =>
    obtain rfl := hadds.only i hi hi₁
    exact ⟨path, List.mem_cons_self, hresolve⟩
  | some x =>
    obtain ⟨q, hq, hqi⟩ := h.created i (Option.isSome_of_eq_some hi₁) hnone
    exact ⟨q, List.mem_cons_of_mem _ hq, System.resolve_extends hadds.extends_ hqi⟩

/-- A call that returns normally. -/
theorem madeLineage_of_mkdirRecursive
    (h : mkdirRecursive os fuel fs path = some (.ok (), fs')) : MadeLineage os fs fs' path := by
  induction fuel generalizing path fs' with
  | zero => cases h
  | succ fuel ih =>
    rw [mkdirRecursive] at h
    split at h
    · next hdir =>
      cases h
      exact .refl hdir
    split at h
    · cases h
    split at h
    · cases h
    · cases h
    · next fs₁ hparent =>
      split at h
      · cases h
      · next fs₂ hmkdir =>
        cases h
        exact (ih hparent).mkdir hmkdir

theorem MadeLineage.made (h : MadeLineage os fs fs' path) : Made os fs fs' path := by
  refine ⟨fun q hq => ?_, h.extends_, fun i hi hnone => ?_⟩
  · exact hq.elim (fun heq => heq ▸ h.directory) fun hq => hq.isDirectory h.directory
  · obtain ⟨q, hq, hresolve⟩ := h.created i hi hnone
    exact ⟨q, ancestor_of_mem_lineage hq, hresolve⟩

end Runs

/-- The recursion ends, with the directories of the path and nothing else, if the path or what
`getParent` makes of it again and again is there. -/
theorem mkdirRecursive_iff (fs : Files) (path : Bytes) :
    ((∃ fuel r, mkdirRecursive os fuel fs path = some r) ∧
      ∀ fuel fs', mkdirRecursive os fuel fs path = some (.ok (), fs') → Made os fs fs' path) ↔
      ∃ q ∈ lineage path, exists_ os fs q := by
  constructor
  · rintro ⟨⟨fuel, r, hr⟩, -⟩
    by_contra hnone
    have hnone' : ∀ q ∈ lineage path, exists_ os fs q = false := fun q hq =>
      Bool.eq_false_iff.mpr fun hexists => hnone ⟨q, hq, hexists⟩
    rw [mkdirRecursive_eq_none hnone'] at hr
    cases hr
  · exact fun h => ⟨mkdirRecursive_returns h, fun _ _ h => (madeLineage_of_mkdirRecursive h).made⟩

/-- A file system with an empty root. -/
def onlyRoot : Files where
  node i := if i = 0 then some (.directory (fun _ => none) 0 true) else none
  next := 1
  root := 0
  cwd := 0
  maxLinks := 40
  fresh i hi := if_neg (by omega)
  live h n i hi := by
    obtain ⟨-, h⟩ := Option.ite_none_right_eq_some.mp h
    cases h
    cases hi
  parent h := by
    obtain ⟨-, h⟩ := Option.ite_none_right_eq_some.mp h
    cases h
    rfl
  root_directory := rfl
  cwd_directory := rfl

def permissive : System := ⟨4096, fun _ _ => some true⟩

/-- `/a` is not there and the root is: the recursion does not end. -/
theorem not_mkdirRecursive :
    ¬((∃ fuel r, mkdirRecursive permissive fuel onlyRoot [slash, 97] = some r) ∧
      ∀ fuel fs', mkdirRecursive permissive fuel onlyRoot [slash, 97] = some (.ok (), fs') →
        Made permissive onlyRoot fs' [slash, 97]) := by
  rintro ⟨⟨fuel, r, hr⟩, -⟩
  have hparent : getParent [slash, 97] = [] := by
    rw [getParent]
    rfl
  have hroute : route [slash, 97] = ⟨true, [.empty, .name [97]]⟩ := rfl
  have hresolve : permissive.resolve onlyRoot [slash, 97] = none := by
    rw [System.resolve, if_pos (by decide), hroute, FileSystem.resolve,
      FileSystem.walk_cons_of_linkAt_eq_none (FileSystem.step_empty rfl) rfl, FileSystem.walk]
    rfl
  have hlineage : ∀ q ∈ lineage [slash, 97], exists_ permissive onlyRoot q = false := by
    intro q hq
    rw [lineage_of_ne_nil (by simp), hparent, lineage_nil, List.mem_singleton] at hq
    rw [hq, exists_, show cStr [slash, 97] = [slash, 97] from rfl, hresolve]
    rfl
  rw [mkdirRecursive_eq_none hlineage] at hr
  cases hr

end McpeLauncher.FileUtil
