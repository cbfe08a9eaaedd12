import McpeLauncher.Extract.ZipExtractor
import McpeLauncher.Lib.LexicalPath

/-!
# The import of archives

`ZipExtractionTask::run` and `ApkExtractionTask::run` up to the merge: the filters that make the
output names, the checks of the manifests, and the directory that the result is merged into. The
temporary directory is new: a path in it exists if it is on the way to a file that was opened.
-/

namespace McpeLauncher.Extract
open LexicalPath

/-- The components of a text. -/
def components (s : List Char) : Path := s.splitOn '/'

/-- A source, and the entries that libzip finds in it; `openError` is the error of `zip_open`. -/
structure Archive where
  openError : Option Int
  entries : List Entry

/-- `extractTo` with the output name below the directory that `filter` makes of the name of an
entry. -/
def Archive.extractTo (a : Archive) (os : Os) (dir : Directory) (filter : List Char → Option (List Char))
    (h : List Op) : Except ZipExtractionError (List ZipExtractor.Output) × List Op :=
  match a.openError with
  | some err => (.error ⟨"Failed to open zip " ++ toString err⟩, h)
  | none =>
    ZipExtractor.extractTo os (fun name => (filter name).map fun out => dir.path ++ components out)
      a.entries h

/-! ## ZIP files -/

namespace ZipExtractionTask

/-- The filter: directories are skipped. For an empty text the byte in front of it is looked at;
`before` says whether that is a `/`. -/
def filter (before : Bool) (filename : List Char) : Option (List Char) :=
  match filename.getLast? with
  | none => if before then none else some []
  | some c => if c = '/' then none else some filename

/-- The loop over the sources. -/
def run (os : Os) (dir : Directory) (before : Bool) :
    List Archive → List Op → Except ZipExtractionError Unit × List Op
  | [], h => (.ok (), h)
  | a :: sources, h =>
    match a.extractTo os dir (filter before) h with
    | (.error e, h) => (.error e, h)
    | (.ok _, h) => run os dir before sources h

end ZipExtractionTask

/-! ## APK files -/

namespace MinecraftExtractUtils

def assets : List Char := ['a', 's', 's', 'e', 't', 's', '/']
def resRaw : List Char := ['r', 'e', 's', '/', 'r', 'a', 'w', '/']
def lib : List Char := ['l', 'i', 'b', '/']
def icon : List Char := ['i', 'c', 'o', 'n', '.', 'p', 'n', 'g']
def resIcon : List Char :=
  ['r', 'e', 's', '/', 'd', 'r', 'a', 'w', 'a', 'b', 'l', 'e', '-', 'x', 'x', 'x', 'h', 'd', 'p', 'i', '-',
    'v', '4', '/'] ++ icon
def manifest : List Char := "AndroidManifest.xml".toList

/-- The output name below the directory. -/
def filterMinecraftFile (includeManifest : Bool) (filename : List Char) : Option (List Char) :=
  if 7 ≤ filename.length ∧ assets <+: filename then some filename
  else if 8 < filename.length ∧ resRaw <+: filename then some (assets ++ filename.drop 8)
  else if filename = resIcon then some (assets ++ icon)
  else if 4 < filename.length ∧ lib <+: filename then some filename
  else if includeManifest = true ∧ filename = manifest then some filename
  else none

end MinecraftExtractUtils

structure ApkInfo where
  versionCode : Int
  versionName : List Char
  package : List Char
  split : List Char
  deriving DecidableEq

/-- A source with what reading and parsing its manifest gives. -/
structure ApkSource extends Archive where
  manifest : Except String ApkInfo

/-- What is thrown before the merge. -/
inductive ApkError
  | extraction (e : ZipExtractionError)
  | manifest (what : String)
  | forbiddenApk
  | differentVersionCodes
  | differentPackages
  | unsupported
  | emptyVersionName
  deriving DecidableEq

/-- `abis` are the names of `SupportedAndroidAbis::getAbis`, and whether they are compatible. -/
structure ApkExtractionTask where
  sources : List ApkSource
  allowedPackages : List (List Char)
  allowIncompatible : Bool
  versionName : List Char
  abis : List (List Char × Bool)

namespace ApkExtractionTask

/-- What is known of the import after another manifest. -/
def checkInfo (allowedPackages : List (List Char)) (apkInfo capkInfo : ApkInfo) :
    Except ApkError ApkInfo :=
  if apkInfo.versionCode = 0 then
    if allowedPackages ≠ [] ∧ allowedPackages.contains capkInfo.package = false then .error .forbiddenApk
    else .ok capkInfo
  else if apkInfo.versionCode ≠ capkInfo.versionCode then .error .differentVersionCodes
  else if apkInfo.package ≠ capkInfo.package then .error .differentPackages
  else if apkInfo.versionName = [] then .ok { apkInfo with versionName := capkInfo.versionName }
  else .ok apkInfo

/-- The loop over the sources. A source that cannot be opened throws before its manifest is read. -/
def extractSources (os : Os) (dir : Directory) (allowedPackages : List (List Char)) :
    List ApkSource → ApkInfo → List Op → Except ApkError ApkInfo × List Op
  | [], apkInfo, h => (.ok apkInfo, h)
  | s :: sources, apkInfo, h =>
    match s.openError, s.manifest with
    | some err, _ => (.error (.extraction ⟨"Failed to open zip " ++ toString err⟩), h)
    | none, .error what => (.error (.manifest what), h)
    | none, .ok capkInfo =>
      match checkInfo allowedPackages apkInfo capkInfo with
      | .error e => (.error e, h)
      | .ok apkInfo =>
        let isBaseApk := capkInfo.split.isEmpty
        match s.extractTo os dir (MinecraftExtractUtils.filterMinecraftFile isBaseApk) h with
        | (.error e, h) => (.error (.extraction e), h)
        | (.ok _, h) => extractSources os dir allowedPackages sources apkInfo h

/-- Whether the path is on the way to a file that was opened. -/
def fileExists (h : List Op) (p : Path) : Bool :=
  h.any fun op =>
    match op with
    | .fopen path true => path.inits.any fun q => resolve q = resolve p
    | _ => false

/-- `/lib/<abi>/libminecraftpe.so`. -/
def gameLibrary (abi : List Char) : Path :=
  [['l', 'i', 'b'], abi, "libminecraftpe.so".toList]

def supported (t : ApkExtractionTask) (dir : Directory) (h : List Op) : Bool :=
  t.abis.any fun abi => abi.2 && fileExists h (dir.path ++ gameLibrary abi.1)

/-- `QDir(getBaseDir()).filePath(directory)`: an absolute path is returned as it is. A path that
begins with a colon is that of a resource and not of a file. -/
def getDirectoryFor (versions : Directory) (directory : List Char) : Path :=
  match directory.head? with
  | some '/' => components directory
  | some ':' => [directory]
  | _ => versions.path ++ components directory

/-- The name of the version: the one that was set, else the one of the manifests. -/
def nameFor (t : ApkExtractionTask) (apkInfo : ApkInfo) : List Char :=
  if t.versionName ≠ [] then t.versionName else apkInfo.versionName

/-- `run` up to the merge: the directory that the result is merged into. -/
def run (t : ApkExtractionTask) (os : Os) (versions dir : Directory) : Except ApkError Path × List Op :=
  match extractSources os dir t.allowedPackages t.sources ⟨0, [], [], []⟩ [] with
  | (.error e, h) => (.error e, h)
  | (.ok apkInfo, h) =>
    if !t.allowIncompatible && !t.supported dir h then (.error .unsupported, h)
    else if t.nameFor apkInfo = [] then (.error .emptyVersionName, h)
    else (.ok (getDirectoryFor versions (t.nameFor apkInfo)), h)

end ApkExtractionTask
end McpeLauncher.Extract
