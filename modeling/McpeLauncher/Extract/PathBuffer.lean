import McpeLauncher.FileUtil.MkdirRecursive

/-!
# Making directories in a buffer

`ZipExtractor::mkdirRecursive` cuts its path in place: the last slash becomes a zero for the time of
the call for what is in front of it, and a slash again behind it.
-/

namespace McpeLauncher.Extract.PathBuffer

open FileUtil

/-- A system, with the `errno` that `mkdir` leaves where it fails: whether it is `EEXIST`. A path is
not too long because of the slash of the root. -/
structure Host extends System where
  eexist : Files → Bytes → Bool
  root_short : 1 < pathMax

theorem count_cut_lt {path : Bytes} {a : Nat} (h : rfind slash path = some a) :
    (path.set a 0).count slash < path.count slash := by
  obtain ⟨hlt, hslash⟩ := List.getElem?_eq_some_iff.mp (getElem?_of_rfind h)
  have hpos : 0 < path.count slash := List.count_pos_iff.mpr (hslash ▸ List.getElem_mem hlt)
  rw [List.count_set hlt, hslash, if_pos (beq_self_eq_true slash), if_neg (by decide)]
  omega

/-- The files, and the buffer. Its length stays `len` all the way up, and each call finds a slash
less. -/
def mkdirRecursive (os : Host) (fs : Files) (path : Bytes) (createThisDir : Bool) :
    Files × Bytes :=
  match if createThisDir then os.mkdir fs (cStr path) else none with
  | some fs => (fs, path)
  | none =>
    if createThisDir && os.eexist fs (cStr path) then (fs, path)
    else
      let (fs, path) :=
        match _h : rfind slash path with
        | some a =>
          let (fs, path) := mkdirRecursive os fs (path.set a 0) true
          (fs, path.set a slash)
        | none => (fs, path)
      (if createThisDir then (os.mkdir fs (cStr path)).getD fs else fs, path)
termination_by path.count slash
decreasing_by exact count_cut_lt _h

/-! ## The cut -/

theorem set_cut {path : Bytes} {a : Nat} (h : rfind slash path = some a) :
    (path.set a 0).set a slash = path := by
  obtain ⟨l, t, rfl, rfl, -⟩ := split_of_rfind h
  simp

/-- The cut is undone. -/
theorem buffer_mkdirRecursive (os : Host) (fs : Files) (path : Bytes) (createThisDir : Bool) :
    (mkdirRecursive os fs path createThisDir).2 = path := by
  fun_induction mkdirRecursive os fs path createThisDir with
  | case1 => rfl
  | case2 => rfl
  | case3 path createThisDir _ _ fs₁ path₁ hparents ih =>
    split at hparents
    · next a ha =>
      rw [← (Prod.mk.inj hparents).2, ih a ha, set_cut ha]
    · exact (Prod.mk.inj hparents).2.symm

/-! ## Ancestors -/

/-- A path up to a slash; up to the first one it is the root. -/
def ProperAncestor (q path : Bytes) : Prop :=
  ∃ l t, path = l ++ slash :: t ∧ q = if l = [] then [slash] else l

/-- A path up to a slash, as it is in the buffer once it is cut there. -/
def Cut (q path : Bytes) : Prop := q ≠ [] ∧ ∃ l t, path = l ++ slash :: t ∧ q = cStr l

section Ancestors

variable {os : System} {fs : Files} {path q l t : Bytes}

theorem cStr_cStr (s : Bytes) : cStr (cStr s) = cStr s := Terminated.upTo_upTo 0 s

theorem cStr_prefix (s : Bytes) : ∃ t, s = cStr s ++ t :=
  ⟨_, (List.takeWhile_append_dropWhile).symm⟩

theorem zero_not_mem_cStr (s : Bytes) : 0 ∉ cStr s := Terminated.not_mem_upTo 0 s

theorem ProperAncestor.ancestor (h : ProperAncestor q path) : Ancestor q path := by
  obtain ⟨l, t, rfl, rfl⟩ := h
  split
  · next hl =>
    subst hl
    exact ⟨List.cons_ne_nil _ _, [], t, rfl, .inr rfl⟩
  · next hl => exact ⟨hl, l, t, rfl, .inl rfl⟩

theorem Cut.cases (h : Cut q path) : q = cStr path ∨ ProperAncestor q (cStr path) := by
  obtain ⟨hq, l, t, rfl, rfl⟩ := h
  by_cases hl : 0 ∈ l
  · exact .inl (cStr_append_of_mem hl _).symm
  · have hcStr := cStr_of_not_mem hl
    rw [hcStr] at hq
    refine .inr ⟨l, cStr t, ?_, by rw [hcStr, if_neg hq]⟩
    rw [cStr_append_of_not_mem hl]
    rfl

theorem cStr_ne_nil_of_cut (h : Cut q path) : cStr path ≠ [] := by
  obtain hq | ⟨l, t, heq, -⟩ := h.cases
  · exact hq ▸ h.1
  · rw [heq]
    exact List.append_ne_nil_of_right_ne_nil l (List.cons_ne_nil slash t)

theorem ProperAncestor.cut (h : ProperAncestor q (cStr path)) : q = [slash] ∨ Cut q path := by
  obtain ⟨l, t, heq, rfl⟩ := h
  split
  · exact .inl rfl
  · next hl =>
    obtain ⟨rest, hrest⟩ := cStr_prefix path
    have hzero : 0 ∉ l := fun hmem => zero_not_mem_cStr path (heq ▸ List.mem_append_left _ hmem)
    refine .inr ⟨hl, l, t ++ rest, ?_, (cStr_of_not_mem hzero).symm⟩
    rw [hrest, heq, List.append_assoc, List.cons_append]

/-- Where there is a slash, if there is none behind `b`. -/
theorem append_eq_append_slash {l l' t t' : Bytes} {b : UInt8} (ht : slash ∉ t)
    (h : l ++ b :: t = l' ++ slash :: t') :
    (l = l' ∧ b = slash) ∨ ∃ s, l = l' ++ slash :: s := by
  obtain ⟨as, hl, hb⟩ | ⟨bs, hl, hb⟩ := List.append_eq_append_iff.mp h
  · cases as with
    | nil => exact .inl ⟨by rw [hl, List.append_nil], (List.cons.inj hb).1⟩
    | cons a as =>
      refine absurd ?_ ht
      rw [(List.cons.inj hb).2]
      exact List.mem_append_right as (.head t')
  · cases bs with
    | nil => exact .inl ⟨by rw [hl, List.append_nil], (List.cons.inj hb).1.symm⟩
    | cons c bs =>
      obtain ⟨rfl, -⟩ := List.cons.inj hb
      exact .inr ⟨bs, hl⟩

/-- The cuts of a path are the one at its last slash and those of what this leaves. -/
theorem cut_iff (ht : slash ∉ t) :
    Cut q (l ++ slash :: t) ↔ q ≠ [] ∧ (q = cStr (l ++ 0 :: t) ∨ Cut q (l ++ 0 :: t)) := by
  rw [cStr_append_zero]
  constructor
  · rintro ⟨hq, l', t', heq, rfl⟩
    obtain ⟨rfl, -⟩ | ⟨s, rfl⟩ := append_eq_append_slash ht heq
    · exact ⟨hq, .inl rfl⟩
    · exact ⟨hq, .inr ⟨hq, l', s ++ 0 :: t, List.append_assoc _ _ _, rfl⟩⟩
  · rintro ⟨hq, rfl | ⟨-, l', t', heq, rfl⟩⟩
    · exact ⟨hq, l, t, rfl, rfl⟩
    · obtain ⟨-, hzero⟩ | ⟨s, rfl⟩ := append_eq_append_slash ht heq
      · cases hzero
      · exact ⟨hq, l', s ++ slash :: t, List.append_assoc _ _ _, rfl⟩

theorem isDirectory_cStr : isDirectory os fs (cStr path) = isDirectory os fs path := by
  rw [isDirectory, cStr_cStr, isDirectory]

theorem Cut.isDirectory (hq : Cut q path) (h : isDirectory os fs path) :
    FileUtil.isDirectory os fs q := by
  obtain rfl | hq := hq.cases
  · rwa [isDirectory_cStr]
  · exact hq.ancestor.isDirectory (isDirectory_cStr.symm ▸ h)

/-- The root is there. -/
theorem isDirectory_root (os : Host) (fs : Files) : isDirectory os.toSystem fs [slash] := by
  have hwalk : fs.walk fs.maxLinks fs.root (List.replicate 2 .empty) = some fs.root :=
    FileSystem.walk_replicate_empty fs.root_directory 2
  refine isDirectory_iff.mpr ⟨fs.root, ?_, fs.root_directory⟩
  exact (if_pos ⟨List.cons_ne_nil _ _, os.root_short⟩).trans hwalk

end Ancestors

/-! ## Runs -/

/-- The files after calls of `mkdir` for some of the paths `T`. -/
inductive Reached (os : System) (T : Bytes → Prop) (fs : Files) : Files → Prop
  | refl : Reached os T fs fs
  | mkdir {fs₁ fs₂ : Files} {q : Bytes} :
      Reached os T fs fs₁ → T q → os.mkdir fs₁ q = some fs₂ → Reached os T fs fs₂

/-- For the paths `T`, `mkdir` fails because the directory is there, or some directory on the way to
it is not. -/
def FailsOnly (os : Host) (T : Bytes → Prop) (fs : Files) : Prop :=
  ∀ fs₁ q, Reached os.toSystem T fs fs₁ → T q → os.mkdir fs₁ q = none →
    (isDirectory os.toSystem fs₁ q ∧ os.eexist fs₁ q) ∨
    (os.eexist fs₁ q = false ∧ ∃ p, ProperAncestor p q ∧ ¬ isDirectory os.toSystem fs₁ p)

section Runs

variable {os : Host} {T : Bytes → Prop} {fs fs₁ fs₂ : Files} {path q : Bytes}

theorem isDirectory_mkdir {os : System} (h : os.mkdir fs (cStr path) = some fs₁) :
    isDirectory os fs₁ path := by
  obtain ⟨hadds, hresolve⟩ := System.mkdir_eq_some h
  exact isDirectory_iff.mpr ⟨_, hresolve, hadds.directory⟩

/-- The files that a call leaves. -/
structure Ready (os : Host) (T : Bytes → Prop) (fs fs' : Files) (path : Bytes)
    (createThisDir : Bool) : Prop where
  reached : Reached os.toSystem T fs fs'
  cuts : ∀ q, Cut q path → isDirectory os.toSystem fs' q
  this : createThisDir = true → cStr path ≠ [] → isDirectory os.toSystem fs' path

theorem Ready.of_isDirectory (hreached : Reached os.toSystem T fs fs₁)
    (h : cStr path ≠ [] → isDirectory os.toSystem fs₁ path) :
    Ready os T fs fs₁ path true where
  reached := hreached
  cuts _ hq := hq.isDirectory (h (cStr_ne_nil_of_cut hq))
  this _ := h

/-- The call for what is in front of the last slash. -/
theorem Ready.uncut {l t : Bytes} (ht : slash ∉ t) (h : Ready os T fs fs₁ (l ++ 0 :: t) true) :
    Ready os T fs fs₁ (l ++ slash :: t) false where
  reached := h.reached
  cuts q hq := by
    obtain ⟨hne, rfl | hq⟩ := (cut_iff ht).mp hq
    · rw [isDirectory_cStr]
      exact h.this rfl hne
    · exact h.cuts q hq
  this hfalse := nomatch hfalse

/-- The last call, behind those for the ancestors. -/
theorem Ready.mkdir (h : Ready os T fs fs₁ path false) (hfails : FailsOnly os T fs)
    (hthis : cStr path ≠ [] → T (cStr path)) :
    Ready os T fs ((os.mkdir fs₁ (cStr path)).getD fs₁) path true := by
  cases hmkdir : os.mkdir fs₁ (cStr path) with
  | some fs₂ =>
    have hne := (System.resolve_eq_some (System.mkdir_eq_some hmkdir).2).1.1
    exact .of_isDirectory (h.reached.mkdir (hthis hne) hmkdir) fun _ => isDirectory_mkdir hmkdir
  | none =>
    refine .of_isDirectory h.reached fun hne => ?_
    obtain ⟨hdir, -⟩ | ⟨-, p, hp, hmissing⟩ := hfails fs₁ _ h.reached (hthis hne) hmkdir
    · rwa [isDirectory_cStr] at hdir
    · refine absurd ?_ hmissing
      obtain rfl | hp := hp.cut
      · exact isDirectory_root os fs₁
      · exact h.cuts p hp

theorem ready_mkdirRecursive (hfails : FailsOnly os T fs) (path : Bytes) (createThisDir : Bool)
    (hcuts : ∀ q, Cut q path → T q)
    (hthis : createThisDir = true → cStr path ≠ [] → T (cStr path)) :
    Ready os T fs (mkdirRecursive os fs path createThisDir).1 path createThisDir := by
  fun_induction mkdirRecursive os fs path createThisDir with
  | case1 path createThisDir fs₁ hmade =>
    obtain ⟨rfl, hmkdir⟩ := Option.ite_none_right_eq_some.mp hmade
    have hne := (System.resolve_eq_some (System.mkdir_eq_some hmkdir).2).1.1
    exact .of_isDirectory (.mkdir .refl (hthis rfl hne) hmkdir) fun _ => isDirectory_mkdir hmkdir
  | case2 path createThisDir hmade heexist =>
    obtain ⟨rfl, hexists⟩ := Bool.and_eq_true_iff.mp heexist
    refine .of_isDirectory .refl fun hne => ?_
    obtain ⟨hdir, -⟩ | ⟨hnot, -⟩ := hfails fs _ .refl (hthis rfl hne) hmade
    · rwa [isDirectory_cStr] at hdir
    · cases hexists.symm.trans hnot
  | case3 path createThisDir _ _ fs₁ path₁ hparents ih =>
    have hready : Ready os T fs fs₁ path false ∧ path₁ = path := by
      split at hparents
      · next a ha =>
        obtain ⟨rfl, rfl⟩ := Prod.mk.inj hparents
        refine ⟨?_, by rw [buffer_mkdirRecursive, set_cut ha]⟩
        obtain ⟨l, t, rfl, rfl, ht⟩ := split_of_rfind ha
        have hcut : List.set (l ++ slash :: t) l.length 0 = l ++ 0 :: t := by simp
        have ih := ih l.length ha
        rw [hcut] at ih ⊢
        refine .uncut ht (ih (fun q hq => ?_) fun _ hne => ?_)
        · exact hcuts q ((cut_iff ht).mpr ⟨hq.1, .inr hq⟩)
        · exact hcuts _ ((cut_iff ht).mpr ⟨hne, .inl rfl⟩)
      · next ha =>
        obtain ⟨rfl, rfl⟩ := Prod.mk.inj hparents
        refine ⟨⟨.refl, fun q hq => ?_, fun hfalse => nomatch hfalse⟩, rfl⟩
        obtain ⟨-, l, t, rfl, -⟩ := hq
        exact absurd (List.mem_append_right l (.head t)) (not_mem_of_rfind ha)
    obtain ⟨hready, rfl⟩ := hready
    cases createThisDir with
    | true => exact hready.mkdir hfails (hthis rfl)
    | false => exact hready

end Runs

/-- The paths that are asked for. -/
def Asked (path : Bytes) (createThisDir : Bool) (q : Bytes) : Prop :=
  Cut q path ∨ (createThisDir = true ∧ q = cStr path)

/-- If `mkdir` fails only where a directory is there or one on the way to it is missing, the buffer
is left as it was, all ancestors of the path are directories, and so is the path if it was asked
for. -/
theorem directories_mkdirRecursive (os : Host) (fs : Files) (path : Bytes) (createThisDir : Bool)
    (hfails : FailsOnly os (Asked path createThisDir) fs) :
    (mkdirRecursive os fs path createThisDir).2 = path ∧
      (∀ q, ProperAncestor q (cStr path) →
        isDirectory os.toSystem (mkdirRecursive os fs path createThisDir).1 q) ∧
      (createThisDir = true →
        isDirectory os.toSystem (mkdirRecursive os fs path createThisDir).1 path) := by
  have hready := ready_mkdirRecursive hfails path createThisDir (fun _ => .inl) fun h _ =>
    .inr ⟨h, rfl⟩
  refine ⟨buffer_mkdirRecursive os fs path createThisDir, fun q hq => ?_, fun hthis => ?_⟩
  · obtain rfl | hq := hq.cut
    · exact isDirectory_root os _
    · exact hready.cuts q hq
  · refine hready.this hthis fun hnil => ?_
    -- an empty path is none that `mkdir` takes
    obtain ⟨hdir, -⟩ | ⟨-, p, ⟨l, t, hp, -⟩, -⟩ :=
      hfails fs [] .refl (.inr ⟨hthis, hnil.symm⟩) (if_neg fun h => h.1 rfl)
    · cases exists_nil.symm.trans (exists_of_isDirectory hdir)
    · cases List.append_eq_nil_iff.mp hp.symm |>.2

/-! ## Without permissions -/

/-- All there is are directories that may be searched. -/
def Plain (fs : Files) : Prop :=
  ∀ i x, fs.node i = some x → ∃ entries parent, x = .directory entries parent true

section Plain

open FileSystem

variable {fs fs' : Files} {links d i : Nat} {cs : List (Component Bytes)} {n : Bytes}
  {r : Route Bytes}

theorem Plain.isDirectoryAt (h : Plain fs) (hi : (fs.node i).isSome) : fs.isDirectoryAt i := by
  obtain ⟨x, hx⟩ := Option.isSome_iff_exists.mp hi
  obtain ⟨entries, parent, rfl⟩ := h i x hx
  exact isDirectoryAt_iff.mpr ⟨_, _, _, hx⟩

theorem Plain.walk (h : Plain fs) (hd : fs.isDirectoryAt d) (hwalk : fs.walk links d cs = some i) :
    fs.isDirectoryAt i := by
  fun_induction FileSystem.walk fs links d cs with
  | case1 => exact Option.some.inj hwalk ▸ hd
  | case2 => cases hwalk
  | case3 d c cs j hstep links hlink ih => exact ih (h.isDirectoryAt (isSome_of_step hstep)) hwalk
  | case4 => cases hwalk
  | case5 d c cs j hstep target links hlink ih =>
    rw [linkAt_of_isDirectoryAt (h.isDirectoryAt (isSome_of_step hstep))] at hlink
    cases hlink

theorem Plain.mkdir (h : Plain fs) (hmkdir : fs.mkdir true r = some fs') : Plain fs' := by
  unfold FileSystem.mkdir at hmkdir
  split at hmkdir
  · split at hmkdir
    · cases hmkdir
    · next d _ =>
      obtain ⟨hmay, hmkdir⟩ := Option.dite_none_right_eq_some.mp hmkdir
      obtain rfl := Option.some.inj hmkdir
      intro i x hx
      by_cases hi : i = fs.next
      · cases (hi ▸ createdNode_next).symm.trans hx
        exact ⟨_, _, rfl⟩
      · replace hx := (createdNode_of_ne hi).symm.trans hx
        split at hx
        · obtain ⟨y, hy, rfl⟩ := Option.map_eq_some_iff.mp hx
          obtain ⟨entries, parent, rfl⟩ := h i y hy
          exact ⟨_, _, rfl⟩
        · exact h i x hx
  · cases hmkdir

/-- Nothing keeps `mkdir` from making a directory with a name in a directory that is there. -/
theorem Plain.mkdir_eq_none (h : Plain fs) (hr : r.components = cs ++ [.name n])
    (hmkdir : fs.mkdir true r = none) :
    fs.walk fs.maxLinks (fs.base fs.cwd r) cs = none ∨
      ∃ i, fs.resolve r = some i ∧ fs.isDirectoryAt i := by
  have hdrop : r.components.reverse.dropWhile (·.isEmpty) = .name n :: cs.reverse := by
    rw [hr, List.reverse_append]
    rfl
  rw [FileSystem.mkdir, hdrop] at hmkdir
  simp only [List.reverse_reverse] at hmkdir
  refine or_iff_not_imp_left.mpr fun hne => ?_
  obtain ⟨d, hwalk⟩ := Option.ne_none_iff_exists'.mp hne
  rw [hwalk] at hmkdir
  have hbase : fs.isDirectoryAt (fs.base fs.cwd r) := by
    rw [base]
    split
    · exact fs.root_directory
    · exact fs.cwd_directory
  obtain ⟨entries, parent, s, hd⟩ := isDirectoryAt_iff.mp (h.walk hbase hwalk)
  obtain ⟨_, _, hsearchable⟩ := h d _ hd
  cases hsearchable
  cases hn : entries n with
  | none => simp [mayAdd, hd, hn] at hmkdir
  | some i =>
    have hstep : fs.step d (.name n) = some i := by
      rw [step, hd]
      exact hn
    have hi := h.isDirectoryAt (isSome_of_step hstep)
    refine ⟨i, ?_, hi⟩
    rw [FileSystem.resolve, hr]
    exact walk_append_step hwalk hstep hi 0

end Plain

/-- A host that grants every directory. -/
def permissiveHost : Host :=
  { FileUtil.permissive with eexist := exists_ FileUtil.permissive, root_short := by decide }

theorem plain_reached {T : Bytes → Prop} {fs fs' : Files} (h : Plain fs)
    (hreached : Reached FileUtil.permissive T fs fs') : Plain fs' := by
  induction hreached with
  | refl => exact h
  | mkdir _ _ hmkdir ih => exact ih.mkdir (Option.ite_none_right_eq_some.mp hmkdir).2

/-- In a file system of directories, `mkdir` of a name that is not too long fails for the reasons
allowed. -/
theorem mkdir_permissive {fs : Files} (h : Plain fs) (q : Bytes)
    (cs : List (FileSystem.Component Bytes)) {n : Bytes} (htakes : FileUtil.permissive.Takes q)
    (hr : (route q).components = cs ++ [.name n]) (hmkdir : FileUtil.permissive.mkdir fs q = none) :
    fs.walk fs.maxLinks (fs.base fs.cwd (route q)) cs = none ∨
      ∃ i, FileUtil.permissive.resolve fs q = some i ∧ fs.isDirectoryAt i := by
  rw [System.mkdir, if_pos htakes] at hmkdir
  refine (h.mkdir_eq_none hr hmkdir).imp_right fun ⟨i, hi, hdir⟩ => ⟨i, ?_, hdir⟩
  rw [System.resolve, if_pos htakes, hi]

theorem plain_onlyRoot : Plain onlyRoot := by
  intro i x hx
  obtain ⟨-, hx⟩ := Option.ite_none_right_eq_some.mp hx
  exact ⟨_, _, (Option.some.inj hx).symm⟩

theorem cut_ab {q : Bytes} (h : Cut q [slash, 97, slash, 98]) : q = [slash, 97] := by
  obtain ⟨hne, rfl | h⟩ := (cut_iff (l := [slash, 97]) (t := [98]) (by decide)).mp h
  · rfl
  · obtain ⟨-, rfl | h⟩ := (cut_iff (l := []) (t := [97, 0, 98]) (by decide)).mp h
    · exact absurd rfl hne
    · obtain ⟨-, l, t, hl, -⟩ := h
      have hmem : slash ∈ l ++ slash :: t := List.mem_append_right l (.head t)
      exact absurd (hl.symm ▸ hmem) (by decide)

theorem failsOnly_ab :
    FailsOnly permissiveHost (Asked [slash, 97, slash, 98] true) onlyRoot := by
  intro fs q hreached hq hmkdir
  have hplain := plain_reached plain_onlyRoot hreached
  have hthere {i : Nat} {q : Bytes} (hcStr : cStr q = q)
      (hi : FileUtil.permissive.resolve fs q = some i) (hdir : fs.isDirectoryAt i) :
      isDirectory FileUtil.permissive fs q ∧ exists_ FileUtil.permissive fs q :=
    have h := isDirectory_iff.mpr ⟨i, hcStr.symm ▸ hi, hdir⟩
    ⟨h, exists_of_isDirectory h⟩
  obtain hq | ⟨-, rfl⟩ := hq
  · obtain rfl := cut_ab hq
    obtain hnone | ⟨i, hi, hdir⟩ :=
      mkdir_permissive hplain [slash, 97] [.empty] (by decide) rfl hmkdir
    · cases hnone.symm.trans (FileSystem.walk_replicate_empty fs.root_directory 1)
    · exact .inl (hthere rfl hi hdir)
  · obtain hnone | ⟨i, hi, hdir⟩ := mkdir_permissive hplain [slash, 97, slash, 98]
      [.empty, .name [97]] (by decide) rfl hmkdir
    · have hmissing : FileUtil.permissive.resolve fs [slash, 97] = none :=
        (if_pos (by decide)).trans hnone
      have hancestor : Ancestor [slash, 97] [slash, 97, slash, 98] :=
        ⟨by decide, [slash, 97], [98], rfl, .inl rfl⟩
      refine .inr ⟨Bool.eq_false_iff.mpr fun hexists => ?_,
        [slash, 97], ⟨[slash, 97], [98], rfl, rfl⟩, fun hdir => ?_⟩
      · obtain ⟨i, hi⟩ := Option.isSome_iff_exists.mp hexists
        obtain ⟨j, hj, -⟩ := hancestor.resolve hi
        cases hmissing.symm.trans hj
      · obtain ⟨i, hi, -⟩ := isDirectory_iff.mp hdir
        cases hmissing.symm.trans hi
    · exact .inl (hthere rfl hi hdir)

/-- `/a/b` in a file system with an empty root. -/
theorem directories_ab :
    (mkdirRecursive permissiveHost onlyRoot [slash, 97, slash, 98] true).2 =
        [slash, 97, slash, 98] ∧
      isDirectory FileUtil.permissive
        (mkdirRecursive permissiveHost onlyRoot [slash, 97, slash, 98] true).1 [slash, 97] ∧
      isDirectory FileUtil.permissive
        (mkdirRecursive permissiveHost onlyRoot [slash, 97, slash, 98] true).1
        [slash, 97, slash, 98] := by
  obtain ⟨hbuffer, hancestors, hthis⟩ :=
    directories_mkdirRecursive permissiveHost onlyRoot [slash, 97, slash, 98] true failsOnly_ab
  exact ⟨hbuffer, hancestors _ ⟨[slash, 97], [98], rfl, rfl⟩, hthis rfl⟩

end McpeLauncher.Extract.PathBuffer
