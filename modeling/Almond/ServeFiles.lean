import Almond.Errors
import Almond.Startup

/-! # Files that are served from outside the storage roots

A refresh walks a directory tree, hashes its files, writes a manifest of them and returns the new index, which replaces the old one.
A refresh that fails leaves the old index. The fuel of a read is a bound on the number of its `read`s. -/

namespace Almond.ServeFiles

/-- What the index records of a served file. -/
structure ServeFileMetadata extends ServeFile where
  extension : Option Str
  deriving DecidableEq, Repr

/-- The served files, by their hashes. -/
abbrev Index := AList fun _ : Str => ServeFileMetadata

/-- An `async` function that returns an `io::Result`. -/
abbrev AsyncIo := ExceptT IoError Async

/-- Run a fallible task and go on with its result, whatever it is. -/
def attemptIo {α : Type} (p : AsyncIo α) : AsyncIo (Except IoError α) :=
  ExceptT.mk (p.run.bind fun x => .ret (.ok x))

/-- The error of a walk that met more directories than there are. -/
def unfinishedWalk : IoError :=
  ⟨.other, "directory walk did not finish"⟩

/-- The error of a file that has more bytes than the fuel. -/
def unfinishedRead : IoError :=
  ⟨.other, "read did not finish"⟩

/-! ## The walk -/

/-- Look at the entries of one directory; returns the stack of directories and the files. -/
def collectEntries (manifestName : Str) (dir : Path) : List Str → List Path → List Path → AsyncIo (List Path × List Path)
  | [], directories, files => do
    ExceptT.mk (fs (.nextEntry dir))
    return (directories, files)
  | name :: names, directories, files => do
    ExceptT.mk (fs (.nextEntry dir))
    let path := dir ++ [name]
    let fileType : FileType ← ExceptT.mk (fs (.fileType path))
    match fileType with
    | .dir =>
      collectEntries manifestName dir names (if name = ".git".toList then directories else path :: directories) files
    | .file => collectEntries manifestName dir names directories (if name = manifestName then files else files ++ [path])
    | .other => collectEntries manifestName dir names directories files

/-- Walk a directory tree. -/
def collectDirs (manifestName : Str) : Nat → List Path → List Path → AsyncIo (List Path)
  | _, [], files => return files
  | 0, _ :: _, _ => throw unfinishedWalk
  | fuel + 1, dir :: directories, files => do
    let names : List Str ← ExceptT.mk (fs (.readDir dir))
    let (directories, files) ← collectEntries manifestName dir names directories files
    collectDirs manifestName fuel directories files

/-- The files below a root, without the manifest and what is in a `.git` directory. -/
def collectFiles (root : Path) (manifestName : Str) : AsyncIo (List Path) := do
  let fuel ← fs .dirCount
  collectDirs manifestName fuel [root] []

/-! ## Hashing -/

/-- The size of the read buffer. -/
def hashReadBufferSize : Nat := 64 * 1024

/-- Read an open file to its end. -/
def readFile (file : Ino) : Nat → Bytes → AsyncIo Bytes
  | 0, _ => throw unfinishedRead
  | fuel + 1, bytes => do
    let read : Bytes ← ExceptT.mk (fs (.read file bytes.length hashReadBufferSize))
    if read = [] then return bytes
    readFile file fuel (bytes ++ read)

/-- Hash a file. -/
def sha256File (libs : Libs) (fuel : Nat) (path : Path) : AsyncIo Str := do
  let file : Ino ← ExceptT.mk (fs (.openFile path))
  let bytes ← readFile file fuel []
  return libs.sha256Hex bytes

/-! ## The manifest -/

/-- The name of a file in the manifest. -/
def manifestRelativePath (root path : Path) : Str :=
  "./".toList ++ List.intercalate ['/'] (if root.isPrefixOf path then path.drop root.length else path)

/-- One line of the manifest. -/
def manifestLine (entry : Str × Str) : Str :=
  entry.1 ++ "  ".toList ++ entry.2 ++ ['\n']

/-- Write the lines of the manifest. -/
def writeLines (file : Ino) : List (Str × Str) → AsyncIo Unit
  | [] => return ()
  | entry :: entries => do
    ExceptT.mk (fs (.writeAll file (Errors.utf8 (manifestLine entry))))
    writeLines file entries

/-- Write the manifest. The flush at its end is a `sync_all` here: both may fail, and change nothing else. -/
def writeManifest (manifestPath : Path) (entries : List (Str × Str)) : AsyncIo Unit := do
  let file : Ino ← ExceptT.mk (fs (.createFile manifestPath))
  let written ← attemptIo do
    writeLines file entries
    ExceptT.mk (fs (.syncAll file))
  request (.closeFile manifestPath)
  ExceptT.mk (.ret written)

/-! ## The refresh -/

/-- Hash and describe one file. -/
def describe (libs : Libs) (fuel : Nat) (root path : Path) : AsyncIo ((Str × Str) × ServeFileMetadata) := do
  let sha256 ← sha256File libs fuel path
  let (size, _) : Nat × Nat ← ExceptT.mk (fs (.metadata path))
  return ((sha256, manifestRelativePath root path), {
    path := path
    size := size
    mimeType := libs.mimeFromPath path
    extension := path.getLast?.bind Startup.pathExtension })

/-- Hash and describe the files; returns the lines of the manifest and the index. -/
def describeFiles (libs : Libs) (fuel : Nat) (root : Path) :
    List Path → List (Str × Str) → Index → AsyncIo (List (Str × Str) × Index)
  | [], entries, nextIndex => return (entries, nextIndex)
  | path :: files, entries, nextIndex => do
    let (entry, metadata) ← describe libs fuel root path
    describeFiles libs fuel root files (entries ++ [entry]) (nextIndex.insert entry.1 metadata)

/-- Refresh the index: the new one. The manifest is written next to the files, or into the fallback directory. -/
def refreshServeFileIndex (libs : Libs) (fuel : Nat) (root : Path) (manifestName : Str) (fallbackDir : Path) : AsyncIo Index := do
  let files ← collectFiles root manifestName
  let (entries, nextIndex) ← describeFiles libs fuel root files [] ∅
  let sorted := entries.insertionSort fun a b => a.2 ≤ b.2
  if let .error _ ← attemptIo (writeManifest (root ++ [manifestName]) sorted) then
    let _ ← attemptIo (writeManifest (fallbackDir ++ [manifestName]) sorted)
  return nextIndex

/-- The index after a refresh. -/
def refreshed (index : Index) : Except IoError Index → Index
  | .ok nextIndex => nextIndex
  | .error _ => index

/-- Look a hash up. -/
def getServeFile (index : Index) (sha256 : Str) : Option ServeFileMetadata :=
  index.lookup sha256

end Almond.ServeFiles
