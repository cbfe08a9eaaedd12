import McpeLauncher.Lib.FillBuffer
import McpeLauncher.Lib.Split

/-!
# Looking up a program

`EnvPathUtil::findInPath`: every component of a path is put together with the working directory and
the name of the program in a buffer whose size is computed before.
-/

namespace McpeLauncher.FileUtil

abbrev Bytes := List UInt8

def slash : UInt8 := 47
def dot : UInt8 := 46
def colon : UInt8 := 58

/-- The text up to the first zero. -/
def cStr (s : Bytes) : Bytes := s.takeWhile (· ≠ 0)

/-- `resize`: what is there is kept. -/
def resize (s : Bytes) (n : Nat) : Bytes := s.take n ++ List.replicate (n - s.length) 0

def endsWithSlash (s : Bytes) : Bool := s.getLast? = some slash

/-- The buffer of one component. -/
def fillCandidate (what cwd : Bytes) (buf path : Bytes) : Option (FillBuffer UInt8) := do
  let willAppendSlashCwd := cwd.length ≠ 0 && !endsWithSlash cwd
  let cwdWithSlashLen := cwd.length + if willAppendSlashCwd then 1 else 0
  let willPrefixWithCwd := path.length = 0 || path.head? ≠ some slash
  let willReplaceWithDot := path.length = 0 && cwd.length = 0
  let willAppendSlash :=
    if willReplaceWithDot then true else path.length ≠ 0 && !endsWithSlash path
  let b := FillBuffer.start (resize buf
    ((if willPrefixWithCwd then cwdWithSlashLen else 0) +
      (if willReplaceWithDot then 1 else path.length) + (if willAppendSlash then 1 else 0) +
      what.length))
  let b ← if willPrefixWithCwd then do
      let b ← b.put cwd
      if willAppendSlashCwd then b.put [slash] else some b
    else some b
  let b ← if willReplaceWithDot then b.put [dot] else b.put path
  let b ← if willAppendSlash then b.put [slash] else some b
  b.put what

/-- The component at the beginning of a path, and what is behind the separator. -/
def component (path : Bytes) : Bytes := ((Split.first colon path).map (·.1)).getD path
def next (path : Bytes) : Option Bytes := (Split.first colon path).map (·.2)

theorem length_of_next {path rest : Bytes} (h : next path = some rest) :
    rest.length < path.length := by
  obtain ⟨p, hp, rfl⟩ := Option.map_eq_some_iff.mp h
  exact Split.length_of_first hp

/-- The loop: the buffers that were filled, and the result; none if a copy leaves its buffer. -/
def findLoop (access : Bytes → Bool) (what cwd buf path : Bytes) :
    Option (List (FillBuffer UInt8) × Option Bytes) :=
  (fillCandidate what cwd buf (component path)).bind fun b =>
    if access (cStr b.bytes) then some ([b], some b.bytes)
    else
      match _h : next path with
      | none => some ([b], none)
      | some rest => (findLoop access what cwd b.bytes rest).map fun r => (b :: r.1, r.2)
termination_by path.length
decreasing_by exact length_of_next _h

def defaultPath : Bytes := "/bin:/usr/bin".toUTF8.toList

/-- The path that is used when none is given. -/
def searchPath (getenvPath path : Option Bytes) : Bytes :=
  match path with
  | some path => path
  | none =>
    match getenvPath with
    | none => defaultPath
    | some path => if path.length = 0 then defaultPath else path

def findInPath (access : Bytes → Bool) (getenvPath : Option Bytes) (what : Bytes)
    (path cwd : Option Bytes) : Option (List (FillBuffer UInt8) × Option Bytes) :=
  findLoop access what (cwd.getD []) [] (searchPath getenvPath path)

/-! ## The candidates -/

def withSlash (s : Bytes) : Bytes := if endsWithSlash s then s else s ++ [slash]

/-- The directory of a component: absolute, or below the working directory. -/
def directory (cwd component : Bytes) : Bytes :=
  if component = [] then if cwd = [] then [dot] else cwd
  else if component.head? = some slash ∨ cwd = [] then component
  else withSlash cwd ++ component

def candidate (what cwd component : Bytes) : Bytes := withSlash (directory cwd component) ++ what

def candidates (what cwd path : Bytes) : List Bytes :=
  (path.splitOn colon).map (candidate what cwd)

section Candidates

variable {what cwd path : Bytes}

theorem length_resize (s : Bytes) (n : Nat) : (resize s n).length = n := by
  rw [resize, List.length_append, List.length_take, List.length_replicate]
  omega

/-- The copies for a component, as pieces that are always written. -/
theorem putAll_pieces (b : FillBuffer UInt8) (prefixed slashCwd dotted slashed : Bool) :
    (do
      let b ← if prefixed then do
          let b ← b.put cwd
          if slashCwd then b.put [slash] else some b
        else some b
      let b ← if dotted then b.put [dot] else b.put path
      let b ← if slashed then b.put [slash] else some b
      b.put what) =
      b.putAll [if prefixed then cwd else [], if prefixed && slashCwd then [slash] else [],
        if dotted then [dot] else path, if slashed then [slash] else [], what] := by
  cases prefixed <;> cases slashCwd <;> cases dotted <;> cases slashed <;>
    simp [FillBuffer.putAll, FillBuffer.put_nil]

/-- The size of the buffer is that of its pieces. -/
theorem length_pieces (prefixed slashCwd dotted slashed : Bool) :
    [if prefixed then cwd else [], if prefixed && slashCwd then [slash] else [],
      if dotted then [dot] else path, if slashed then [slash] else [], what].flatten.length =
      (if prefixed then cwd.length + if slashCwd then 1 else 0 else 0) +
        (if dotted then 1 else path.length) + (if slashed then 1 else 0) + what.length := by
  cases prefixed <;> cases slashCwd <;> cases dotted <;> cases slashed <;> simp <;> omega

theorem withSlash_eq (s : Bytes) :
    withSlash s = s ++ if !endsWithSlash s then [slash] else [] := by
  unfold withSlash
  cases endsWithSlash s
  · rfl
  · exact (List.append_nil s).symm

theorem endsWithSlash_append (s : Bytes) (h : path ≠ []) :
    endsWithSlash (s ++ path) = endsWithSlash path := by
  rw [endsWithSlash, endsWithSlash, List.getLast?_append_of_ne_nil s h]

/-- The pieces for a component are its candidate. -/
theorem flatten_pieces (what cwd path : Bytes) :
    let prefixed : Bool := path.length = 0 || path.head? ≠ some slash
    let dotted : Bool := path.length = 0 && cwd.length = 0
    [if prefixed then cwd else [],
      if prefixed && (cwd.length ≠ 0 && !endsWithSlash cwd) then [slash] else [],
      if dotted then [dot] else path,
      if (if dotted then true else path.length ≠ 0 && !endsWithSlash path) then [slash] else [],
      what].flatten = candidate what cwd path := by
  by_cases hpath : path = []
  · by_cases hcwd : cwd = []
    · simp [hpath, hcwd, candidate, directory, withSlash, endsWithSlash, dot, slash]
    · simp [hpath, hcwd, candidate, directory, withSlash_eq]
  · by_cases hhead : path.head? = some slash
    · simp [hpath, hhead, candidate, directory, withSlash_eq]
    · by_cases hcwd : cwd = []
      · simp [hpath, hhead, hcwd, candidate, directory, withSlash_eq]
      · simp [hpath, hhead, hcwd, candidate, directory, withSlash_eq, endsWithSlash_append]

/-- The buffer of a component is filled with its candidate. -/
theorem fillCandidate_eq (what cwd buf path : Bytes) :
    ∃ b, fillCandidate what cwd buf path = some b ∧ b.Full ∧ b.bytes = candidate what cwd path := by
  have hpieces := flatten_pieces what cwd path
  unfold fillCandidate
  simp only [putAll_pieces]
  refine (FillBuffer.putAll_of_length ?_).imp fun b hb => ⟨hb.1, hb.2.1, hb.2.2.trans hpieces⟩
  rw [length_pieces, FillBuffer.start, length_resize]
  exact Nat.zero_add _

/-- The components are those at the separators. -/
theorem splitOn_eq (path : Bytes) :
    path.splitOn colon = component path :: ((next path).map (·.splitOn colon)).getD [] := by
  rw [component, next]
  cases h : Split.first colon path with
  | none => exact List.splitOn_eq_singleton (Split.first_eq_none.mp h)
  | some p =>
    obtain ⟨hpath, hnot⟩ := Split.first_eq_some.mp h
    rw [hpath]
    exact List.splitOn_append_cons_self_of_not_mem hnot p.2

/-- What is tried, and what is found. -/
structure Tries (ok : Bytes → Bool) (candidates : List Bytes)
    (r : List (FillBuffer UInt8) × Option Bytes) : Prop where
  full : ∀ b ∈ r.1, b.Full
  tried : r.1.map (·.bytes) = candidates.takeWhile (fun c => !ok c) ++ (candidates.find? ok).toList
  result : r.2 = candidates.find? ok

variable {ok : Bytes → Bool} {b : FillBuffer UInt8}

theorem Tries.found (hfull : b.Full) (hok : ok b.bytes = true) (candidates : List Bytes) :
    Tries ok (b.bytes :: candidates) ([b], some b.bytes) := by
  have hfind : (b.bytes :: candidates).find? ok = some b.bytes := List.find?_cons_of_pos hok
  refine ⟨fun b' hb' => List.mem_singleton.mp hb' ▸ hfull, ?_, hfind.symm⟩
  rw [hfind, List.takeWhile_cons_of_neg (by simp [hok])]
  rfl

theorem Tries.cons {candidates : List Bytes} {r : List (FillBuffer UInt8) × Option Bytes}
    (h : Tries ok candidates r) (hfull : b.Full) (hok : ok b.bytes = false) :
    Tries ok (b.bytes :: candidates) (b :: r.1, r.2) := by
  have hfind : (b.bytes :: candidates).find? ok = candidates.find? ok :=
    List.find?_cons_of_neg (by simp [hok])
  refine ⟨List.forall_mem_cons.mpr ⟨hfull, h.full⟩, ?_, h.result.trans hfind.symm⟩
  rw [hfind, List.takeWhile_cons_of_pos (by simp [hok]), List.map_cons, h.tried]
  rfl

theorem Tries.nil (ok : Bytes → Bool) : Tries ok [] ([], none) :=
  ⟨fun _ h => (nomatch h), rfl, rfl⟩

/-- The loop, by the length of what is left of the path. -/
theorem findLoop_eq (access : Bytes → Bool) (what cwd buf path : Bytes) :
    ∃ r, findLoop access what cwd buf path = some r ∧
      Tries (fun c => access (cStr c)) (candidates what cwd path) r := by
  induction hn : path.length using Nat.strongRecOn generalizing buf path with
  | _ n ih =>
    subst hn
    obtain ⟨b, hb, hfull, hbytes⟩ := fillCandidate_eq what cwd buf (component path)
    have hcandidates : candidates what cwd path =
        b.bytes :: ((next path).map (candidates what cwd)).getD [] := by
      rw [candidates, splitOn_eq, List.map_cons, hbytes]
      cases next path <;> rfl
    rw [findLoop, hb, hcandidates, Option.bind_some]
    by_cases hok : access (cStr b.bytes)
    · exact ⟨_, if_pos hok, .found hfull hok _⟩
    · rw [if_neg hok]
      split
      · next h =>
        rw [h]
        exact ⟨_, rfl, (Tries.nil _).cons hfull (Bool.eq_false_iff.mpr hok)⟩
      · next rest h =>
        obtain ⟨r, hr, htries⟩ := ih rest.length (length_of_next h) b.bytes rest rfl
        rw [h, hr]
        exact ⟨_, rfl, htries.cons hfull (Bool.eq_false_iff.mpr hok)⟩

/-- Each component is tried once, in order, up to the first program that can be run. -/
theorem findInPath_eq (access : Bytes → Bool) (getenvPath : Option Bytes) (what : Bytes)
    (path cwd : Option Bytes) :
    ∃ r, findInPath access getenvPath what path cwd = some r ∧
      Tries (fun c => access (cStr c))
        (candidates what (cwd.getD []) (searchPath getenvPath path)) r :=
  findLoop_eq access what (cwd.getD []) [] (searchPath getenvPath path)

end Candidates

end McpeLauncher.FileUtil
