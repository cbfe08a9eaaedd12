import Mathlib.Algebra.BigOperators.Group.Finset.Basic
import Mathlib.Algebra.GroupWithZero.Nat
import Mathlib.Algebra.Order.BigOperators.Group.Finset
import Mathlib.Data.List.Basic

/-!
# Extraction of zip files

`ZipExtractor` over an arbitrary environment: the results of `mkdir` and `fopen` depend on what was
called before, the results of `zip_fread` and `fwrite` are schedules of each entry.
-/

namespace McpeLauncher.Extract
open Finset

/-- A path, split at `/`; an absolute one begins with the empty name. -/
abbrev Path := List (List Char)

/-- The exception, with its text. -/
structure ZipExtractionError where
  what : String
  deriving DecidableEq

inductive MkdirResult
  | created
  | exists
  | failed
  deriving DecidableEq

/-- The calls that can create a file or a directory, with their results. -/
inductive Op
  | mkdir (path : Path) (r : MkdirResult)
  | fopen (path : Path) (ok : Bool)
  deriving DecidableEq

/-- The results of the calls, after the calls that were made before. -/
structure Os where
  mkdir : List Op → Path → MkdirResult
  fopen : List Op → Path → Bool

/-- An entry of the archive. `zip_stat_index` is called while the files are selected and again when
the entry is extracted; the schedules are the results of `zip_fread`, not larger than what is left
and what is asked for, and how much each `fwrite` can write. -/
structure Entry where
  name : List Char
  data : List UInt8
  listed : Bool
  stat : Bool
  opened : Bool
  reads : Nat → Int
  writes : Nat → Nat

/-- What `zip_fread` returns for a buffer of `n` bytes when `rest` is left of the entry. -/
def zipFread (want : Int) (n : Nat) (rest : List UInt8) : Int :=
  if want ≤ 0 then want else min want (min n rest.length : Nat)

namespace ZipExtractor

/-- `mkdirRecursive` on the first names of a path; `0` names are what is left when there is no
`/`. -/
def mkdirRecursive (os : Os) (path : Path) : Nat → Bool → List Op → List Op
  | 0, _, h => h
  | n + 1, createThisDir, h =>
    let here := path.take (n + 1)
    if createThisDir then
      let r := os.mkdir h here
      let h := h ++ [.mkdir here r]
      if r = .created ∨ r = .exists then h
      else
        let h := mkdirRecursive os path n true h
        h ++ [.mkdir here (os.mkdir h here)]
    else mkdirRecursive os path n true h

/-- What the loop of `extractFile` appends to the file, with the progress it reports. -/
def extractLoop (fileSize bufSize : Nat) (reads : Nat → Int) (writes : Nat → Nat) (total : Nat)
    (rest : List UInt8) : List UInt8 × List (Nat × Nat) :=
  let r := zipFread (reads 0) bufSize rest
  if _h : 0 < r then
    let buf := rest.take r.toNat
    let (file, progress) := extractLoop fileSize bufSize (fun i => reads (i + 1))
      (fun i => writes (i + 1)) (total + r.toNat) (rest.drop r.toNat)
    (buf.take (writes 0) ++ file, (total + r.toNat, fileSize) :: progress)
  else ([], [(total, fileSize)])
termination_by rest.length
decreasing_by simp only [List.length_drop]; unfold r zipFread at *; split at * <;> omega

/-- `extractFile`: the output file and the progress, or the exception. -/
def extractFile (os : Os) (bufSize : Nat) (e : Entry) (target : Path) (h : List Op) :
    Except ZipExtractionError (List UInt8 × List (Nat × Nat)) × List Op :=
  let h := mkdirRecursive os target target.length false h
  let ok := os.fopen h target
  let h := h ++ [.fopen target ok]
  if ok then
    let (file, progress) := extractLoop e.data.length bufSize e.reads e.writes 0 e.data
    (.ok (file, (0, e.data.length) :: progress), h)
  else (.error ⟨"Failed to open output file"⟩, h)

def defaultBufSize : Nat := 2 * 1024 * 1024

/-- An output file that was written, and the progress that was reported meanwhile: of the whole and
of the entry. -/
structure Output where
  path : Path
  file : List UInt8
  progress : List ((Nat × Nat) × (Nat × Nat))
  deriving DecidableEq

/-- The loop of the private `extractTo`. -/
def extractFiles (os : Os) (totalSize : Nat) :
    List (Entry × Path) → Nat → List Op → Except ZipExtractionError (List Output) × List Op
  | [], _, h => (.ok [], h)
  | (e, target) :: files, current, h =>
    if !e.stat then (.error ⟨"zip_stat_index failed"⟩, h)
    else if !e.opened then (.error ⟨"Failed to open file in the zip"⟩, h)
    else
      match extractFile os defaultBufSize e target h with
      | (.error x, h) => (.error x, h)
      | (.ok (file, progress), h) =>
        let output : Output :=
          ⟨target, file, progress.map fun p => ((current + p.1, totalSize), p)⟩
        match extractFiles os totalSize files (current + e.data.length) h with
        | (.error x, h) => (.error x, h)
        | (.ok outputs, h) => (.ok (output :: outputs), h)

/-- The entries that the filter selects, with their output names. -/
def select (filter : List Char → Option Path) (entries : List Entry) : List (Entry × Path) :=
  entries.filterMap fun e => (filter e.name).map (e, ·)

/-- The public `extractTo`. -/
def extractTo (os : Os) (filter : List Char → Option Path) (entries : List Entry) (h : List Op) :
    Except ZipExtractionError (List Output) × List Op :=
  if entries.all Entry.listed then
    let files := select filter entries
    extractFiles os ((files.map fun f => f.1.data.length).sum) files 0 h
  else (.error ⟨"zip_stat_index failed"⟩, h)

/-- The loop of `readFile`, with fuel: `ret` is filled, `rest` is left of the entry. -/
def readLoop (size : Nat) : Nat → (Nat → Int) → List UInt8 → List UInt8 →
    Option (Except ZipExtractionError (List UInt8))
  | 0, _, _, _ => none
  | fuel + 1, reads, ret, rest =>
    if ret.length < size then
      let r := zipFread (reads 0) (size - ret.length) rest
      if r < 0 then some (.error ⟨"Read failed"⟩)
      else readLoop size fuel (fun i => reads (i + 1)) (ret ++ rest.take r.toNat) (rest.drop r.toNat)
    else some (.ok ret)

end ZipExtractor
end McpeLauncher.Extract
