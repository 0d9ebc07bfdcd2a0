import Mathlib

/-!
# Files, directories and the scanner of `xapi.c`

A path is the list of its names. The names of a source tree are counted from the uri of the stream, so that the
root has the path `[]`; a destination is a disk below the uri of the downloader.
-/
namespace Wenas.Xlio

abbrev Name := List UInt8

abbrev Path := List Name

/-- Length of a path written out, with a `/` before each name. -/
def slashed (p : Path) : Nat := (p.map (·.length + 1)).sum

inductive Node where
  | file (data : List UInt8)
  | dir (children : List (Name × Node))

def Node.get : Path → Node → Option Node
  | [], n => some n
  | _ :: _, .file _ => none
  | x :: p, .dir children => (children.lookup x).bind (Node.get p)

/-- What lies below a path that every call takes relative to it. -/
structure Disk where
  files : Path → Option (List UInt8)
  dirs : Path → Bool

def Node.disk (n : Node) : Disk where
  files p := match n.get p with
    | some (.file data) => some data
    | _ => none
  dirs p := match n.get p with
    | some (.dir _) => true
    | _ => false

/-- A directory made by `__fs_path_maker` and nothing in it. -/
def Disk.empty : Disk := ⟨fun _ => none, fun p => p == []⟩

/-- `__fs_path_maker` makes each directory on the way; a file in the way makes it fail. -/
def Disk.pathMaker (d : Disk) (p : Path) : Option Disk :=
  if p.inits.any fun q => (d.files q).isSome then none
  else some { d with dirs := fun q => d.dirs q || q.isPrefixOf p }

/-- `XAPI_FS_FLAG_CREATE`: the file is made in a directory that is there, or cut to nothing. -/
def Disk.create (d : Disk) (p : Path) : Option Disk :=
  if d.dirs p || !d.dirs p.dropLast then none
  else some { d with files := Function.update d.files p (some []) }

/-- `XAPI_FS_FLAG_WRITE`: the file is made if it is not there. -/
def Disk.append (d : Disk) (p : Path) : Option Disk :=
  if d.dirs p || !d.dirs p.dropLast then none
  else some { d with files := Function.update d.files p (some ((d.files p).getD [])) }

/-- Bytes written over a file from an offset on. -/
def overwrite (old : List UInt8) (pos : Nat) (data : List UInt8) : List UInt8 :=
  old.take pos ++ data ++ old.drop (pos + data.length)

def Disk.write (d : Disk) (p : Path) (pos : Nat) (data : List UInt8) : Disk :=
  { d with files := Function.update d.files p ((d.files p).map (overwrite · pos data)) }

def Disk.read (d : Disk) (p : Path) (pos len : Nat) : List UInt8 :=
  (((d.files p).getD []).drop pos).take len

def fsPathMaxLen : Nat := 4096

/-- `struct __xfs_item`. -/
structure Item where
  isFile : Bool
  path : Path
  size : Nat

def Item.of (p : Path) : Node → Item
  | .file data => ⟨true, p, data.length⟩
  | .dir _ => ⟨false, p, 0⟩

/-- `struct __xfs_scanner`: the stack of directories to be read, and the directory being read with the entries
that `uv_fs_readdir` has still to give. -/
structure Scanner where
  stack : List (Path × List (Name × Node))
  current : Option (Path × List (Name × Node))

def traverserInit (children : List (Name × Node)) : Scanner := ⟨[([], children)], none⟩

/-- With no current directory the next one is taken from the stack and is itself the item. -/
def Scanner.pop : List (Path × List (Name × Node)) → Option Item × Scanner
  | [] => (none, ⟨[], none⟩)
  | (p, children) :: stack => (some (.of p (.dir children)), ⟨stack, some (p, children)⟩)

/-- The entries of the current directory `p`: a directory is pushed, a file is the item, and at the end the stack
goes on. A path of `FS_PATH_MAX_LEN` bytes or more ends the scan. -/
def Scanner.readDir (uriLen : Nat) (p : Path) :
    List (Name × Node) → List (Path × List (Name × Node)) → Option Item × Scanner
  | [], stack => Scanner.pop stack
  | (x, n) :: rest, stack =>
    if fsPathMaxLen ≤ uriLen + slashed (p ++ [x]) then (none, ⟨stack, none⟩)
    else match n with
      | .dir children => Scanner.readDir uriLen p rest ((p ++ [x], children) :: stack)
      | .file data => (some (.of (p ++ [x]) (.file data)), ⟨stack, some (p, rest)⟩)

def traverserNext (uriLen : Nat) (s : Scanner) : Option Item × Scanner :=
  match s.current with
  | none => Scanner.pop s.stack
  | some (p, children) => Scanner.readDir uriLen p children s.stack

end Wenas.Xlio
