import Almond.Models

/-! # The local file system

Names lead to inodes and inodes to contents, so that a file that is open keeps its bytes when its name moves or goes away. A file
operation fails when the operation's preconditions fail, and whenever the outside says so; a failed operation changes nothing. -/

namespace Almond

/-- An inode number. -/
abbrev Ino := Nat

/-- The contents of a file and the time of its last write, in nanoseconds of the system clock. -/
structure Node where
  data : Bytes
  modified : Nat
  deriving DecidableEq, Repr

/-- The file system. -/
structure Disk where
  names : AList fun _ : Path => Ino
  nodes : Ino → Node
  nextIno : Ino
  dirs : List Path

/-- What `file_type` tells of a directory entry. -/
inductive FileType where
  | file
  | dir
  | other
  deriving DecidableEq, Repr

/-- The file operations of the program. -/
inductive FsReq where
  | createDirAll (p : Path)
  | readDir (p : Path)
  /-- One step of reading a directory. -/
  | nextEntry (p : Path)
  | fileType (p : Path)
  | tryExists (p : Path)
  | removeFile (p : Path)
  | removeDir (p : Path)
  | removeDirAll (p : Path)
  | rename (source destination : Path)
  /-- `File::create`: open for writing, empty. -/
  | createFile (p : Path)
  /-- `File::open`: open for reading. -/
  | openFile (p : Path)
  | writeAll (ino : Ino) (bytes : Bytes)
  | syncAll (ino : Ino)
  /-- One `read` of at most `len` bytes; it returns no byte only at the end of the file. -/
  | read (ino : Ino) (offset len : Nat)
  | seek (ino : Ino) (offset : Nat)
  /-- The length of an open file. -/
  | fileLen (ino : Ino)
  /-- The length and the modification time of a directory entry. -/
  | metadata (p : Path)
  | availableSpace
  /-- A bound on the number of directories a walk meets. -/
  | dirCount
  deriving DecidableEq

/-- What each file operation returns. -/
@[reducible] def FsReq.Resp : FsReq → Type
  | .createDirAll _ | .nextEntry _ | .removeFile _ | .removeDir _ | .removeDirAll _ | .rename _ _ | .writeAll _ _
  | .syncAll _ | .seek _ _ => Except IoError Unit
  | .readDir _ => Except IoError (List Str)
  | .fileType _ => Except IoError FileType
  | .tryExists _ => Except IoError Bool
  | .createFile _ | .openFile _ => Except IoError Ino
  | .read _ _ _ => Except IoError Bytes
  | .fileLen _ | .availableSpace => Except IoError Nat
  | .metadata _ => Except IoError (Nat × Nat)
  | .dirCount => Nat

/-- What the outside decides of one file operation. -/
structure FsEnv where
  /-- The message of an error that has nothing to do with the state. -/
  fault : Option String
  /-- How many bytes a `read` returns, when that many are there. -/
  chunk : Nat
  /-- The free space of the volume. -/
  available : Nat
  deriving DecidableEq, Repr

namespace Disk

/-- The file at a path. -/
def file? (d : Disk) (p : Path) : Option Node :=
  (d.names.lookup p).map d.nodes

/-- Whether a path is the name of a file. -/
def hasFile (d : Disk) (p : Path) : Bool :=
  (d.names.lookup p).isSome

/-- Whether a path lies directly below a directory. -/
def childOf (dir p : Path) : Bool :=
  p ≠ [] && p.dropLast = dir

/-- The names directly below a directory. -/
def children (d : Disk) (dir : Path) : List Str :=
  ((d.names.keys ++ d.dirs).filter (childOf dir)).filterMap List.getLast?

/-- The directories above a path, and the path itself. -/
def prefixes (p : Path) : List Path :=
  p.inits

/-- The error of a missing file or directory. -/
def noEntry : IoError := ⟨.notFound, "No such file or directory (os error 2)"⟩

/-- The error of a file where a directory is to be created. -/
def fileExists : IoError := ⟨.other, "File exists (os error 17)"⟩

/-- The error of a file where a directory must be. -/
def notDirectory : IoError := ⟨.other, "Not a directory (os error 20)"⟩

/-- The error of a directory where a file must be. -/
def isDirectory : IoError := ⟨.other, "Is a directory (os error 21)"⟩

/-- Whether a path, or a directory above it, is the name of a file. -/
def obstructed (d : Disk) (p : Path) : Bool :=
  (prefixes p).any d.hasFile

/-- The error of a path that is no directory. -/
def noDirectory (d : Disk) (p : Path) : IoError :=
  if d.obstructed p then notDirectory else noEntry

/-- The error of a path that is no file. -/
def noFile (d : Disk) (p : Path) : IoError :=
  if d.dirs.contains p then isDirectory else d.noDirectory p.dropLast

/-- The disk with a name gone. -/
def unlink (d : Disk) (p : Path) : Disk :=
  { d with names := d.names.erase p }

/-- The disk with a file moved. -/
def move (d : Disk) (source destination : Path) (ino : Ino) : Disk :=
  { d with names := (d.names.erase source).insert destination ino }

/-- The disk with a new empty file. -/
def create (d : Disk) (p : Path) (now : Nat) : Disk :=
  { d with
    names := d.names.insert p d.nextIno
    nodes := Function.update d.nodes d.nextIno ⟨[], now⟩
    nextIno := d.nextIno + 1 }

/-- The disk with an open file changed. -/
def setNode (d : Disk) (ino : Ino) (node : Node) : Disk :=
  { d with nodes := Function.update d.nodes ino node }

/-- The disk with a directory and everything below it gone. -/
def removeTree (d : Disk) (p : Path) : Disk :=
  { d with
    names := retain (fun q _ => !p.isPrefixOf q) d.names
    dirs := d.dirs.filter fun q => !p.isPrefixOf q }

/-- Whether the parent of a path is a directory. -/
def parentExists (d : Disk) (p : Path) : Bool :=
  p ≠ [] && d.dirs.contains p.dropLast

/-- The effect of a file operation that is not faulted. -/
def perform (d : Disk) (env : FsEnv) (now : Nat) : (r : FsReq) → r.Resp × Disk
  | .createDirAll p =>
    if d.obstructed p then (.error (if d.hasFile p then fileExists else notDirectory), d)
    else (.ok (), { d with dirs := d.dirs ++ (prefixes p).filter fun q => !d.dirs.contains q })
  | .readDir p => (if d.dirs.contains p then .ok (d.children p) else .error (d.noDirectory p), d)
  | .nextEntry _ => (.ok (), d)
  | .fileType p =>
    (if d.dirs.contains p then .ok .dir else if d.hasFile p then .ok .file else .error noEntry, d)
  | .tryExists p =>
    (if d.dirs.contains p || d.hasFile p then .ok true else if d.obstructed p.dropLast then .error notDirectory else .ok false, d)
  | .removeFile p => if d.hasFile p then (.ok (), d.unlink p) else (.error (d.noFile p), d)
  | .removeDir p =>
    if d.dirs.contains p then
      if d.children p = [] then (.ok (), { d with dirs := d.dirs.filter (· ≠ p) })
      else (.error ⟨.other, "Directory not empty (os error 39)"⟩, d)
    else (.error (d.noDirectory p), d)
  | .removeDirAll p => if d.dirs.contains p then (.ok (), d.removeTree p) else (.error (d.noDirectory p), d)
  | .rename source destination =>
    match d.names.lookup source with
    | none => (.error (d.noDirectory source.dropLast), d)
    | some ino =>
      if d.dirs.contains destination then (.error isDirectory, d)
      else if d.parentExists destination then (.ok (), d.move source destination ino)
      else (.error (d.noDirectory destination.dropLast), d)
  | .createFile p =>
    if d.dirs.contains p then (.error isDirectory, d)
    else if d.parentExists p then
      match d.names.lookup p with
      | some ino => (.ok ino, d.setNode ino ⟨[], now⟩)
      | none => (.ok d.nextIno, d.create p now)
    else (.error (d.noDirectory p.dropLast), d)
  -- The source opens a directory as well, and then fails to read it.
  | .openFile p =>
    match d.names.lookup p with
    | some ino => (.ok ino, d)
    | none => (.error (d.noFile p), d)
  | .writeAll ino bytes => (.ok (), d.setNode ino ⟨(d.nodes ino).data ++ bytes, now⟩)
  | .syncAll _ => (.ok (), d)
  | .read ino offset len =>
    (.ok (((d.nodes ino).data.drop offset).take (min len (max 1 env.chunk))), d)
  | .seek _ _ => (.ok (), d)
  | .fileLen ino => (.ok (d.nodes ino).data.length, d)
  | .metadata p =>
    match d.file? p with
    | some node => (.ok (node.data.length, node.modified), d)
    | none => (.error (d.noDirectory p.dropLast), d)
  | .availableSpace => (.ok env.available, d)
  | .dirCount => (d.dirs.length, d)

/-- The response to a faulted operation. -/
def faulted (d : Disk) (message : String) : (r : FsReq) → r.Resp
  | .createDirAll _ | .readDir _ | .nextEntry _ | .fileType _ | .tryExists _ | .removeFile _ | .removeDir _
  | .removeDirAll _ | .rename _ _ | .createFile _ | .openFile _ | .writeAll _ _ | .syncAll _ | .read _ _ _
  | .seek _ _ | .fileLen _ | .metadata _ | .availableSpace => .error ⟨.other, message⟩
  | .dirCount => d.dirs.length

/-- One file operation. -/
def exec (d : Disk) (env : FsEnv) (now : Nat) (r : FsReq) : r.Resp × Disk :=
  match env.fault with
  | some message => (d.faulted message r, d)
  | none => d.perform env now r

end Disk

end Almond
