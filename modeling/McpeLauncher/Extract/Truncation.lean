import Mathlib.Tactic.Linarith
import McpeLauncher.Extract.ZipExtractor

/-!
# Extraction and short reads

`extractFile` stops at the first result of `zip_fread` that is not positive, whatever is left, and
does not look at what `fwrite` returns; `readFile` asks again after a result of `0`. What they need
of the schedules, exactly.
-/

namespace McpeLauncher.Extract
open Finset

/-- What the first `n` results of `zip_fread` deliver of a long enough entry. -/
def delivered (bufSize : Nat) (reads : Nat → Int) (n : Nat) : Nat :=
  ∑ i ∈ range n, min (reads i).toNat bufSize

/-- The results of `zip_fread` deliver `size` bytes before one of them is not positive, and no
`fwrite` up to there is short. -/
def Delivers (bufSize : Nat) (reads : Nat → Int) (writes : Nat → Nat) (size : Nat) : Prop :=
  ∃ n, (∀ i < n, 0 < reads i) ∧ size ≤ delivered bufSize reads n ∧
    ∀ i < n, min (min (reads i).toNat bufSize) (size - delivered bufSize reads i) ≤ writes i

/-- The results of `zip_fread` deliver `size` bytes, or one of them is negative. -/
def Answers (reads : Nat → Int) (size : Nat) : Prop :=
  ∃ n, reads n < 0 ∨ size ≤ ∑ i ∈ range n, (reads i).toNat

section Schedules

variable {bufSize size : Nat} {reads : Nat → Int} {writes : Nat → Nat}

end Schedules

namespace ZipExtractor

/-- The output file can be opened, after the directories above it are created. -/
def OpensFile (os : Os) (h : List Op) (target : Path) : Prop :=
  os.fopen (mkdirRecursive os target target.length false h) target = true

/-- Every entry can be opened and so can every output file, one after the other. -/
def Opens (os : Os) : List Op → List (Entry × Path) → Prop
  | _, [] => True
  | h, (e, target) :: files =>
    e.stat ∧ e.opened ∧ OpensFile os h target ∧
      Opens os (extractFile os defaultBufSize e target h).2 files

/-- The output files hold the entries, in order. -/
def Complete (outputs : List Output) (files : List (Entry × Path)) : Prop :=
  outputs.map (fun o => (o.path, o.file)) = files.map fun f => (f.2, f.1.data)

section ReadFile

variable {size : Nat} {reads : Nat → Int} {ret rest : List UInt8}

end ReadFile

end ZipExtractor
end McpeLauncher.Extract
