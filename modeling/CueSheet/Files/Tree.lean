import CueSheet.Text

/-!
A tree of files without links. A place is the list of names from the top; a path is a text that leads to
a place, by way of `.` and `..` if it wants to.
-/

namespace CueSheet

inductive FileError
  | notFound
  | notDirectory
  | isDirectory
  | nameTooLong
  | nulInPath
  | notUtf8
  | noSpace
deriving DecidableEq, Repr

def FileError.message : FileError → String
  | .notFound => "No such file or directory (os error 2)"
  | .notDirectory => "Not a directory (os error 20)"
  | .isDirectory => "Is a directory (os error 21)"
  | .nameTooLong => "File name too long (os error 36)"
  | .nulInPath => "file name contained an unexpected NUL byte"
  | .notUtf8 => "stream did not contain valid UTF-8"
  | .noSpace => "No space left on device (os error 28)"

abbrev Place := List String

def Place.path (p : Place) : String := "/" ++ "/".intercalate p

namespace Path

def isAbsolute (path : String) : Bool := path.toList.head? == some '/'

def join (base path : String) : String :=
  if isAbsolute path then path
  else if base.toList.getLast? == some '/' then base ++ path
  else base ++ "/" ++ path

def names (path : String) : List String := (Text.pieces '/' path.toList).map String.ofList

end Path

inductive FileNode
  | directory
  | file (bytes : List UInt8)
  /-- Takes every write and holds nothing, such as the null device. -/
  | sink
  /-- Has room for no write and holds nothing. -/
  | full
deriving DecidableEq

structure FileTree where
  nodes : List (Place × FileNode)

def maxName : Nat := 255

def maxPath : Nat := 4095

namespace FileTree

def node? (t : FileTree) (p : Place) : Option FileNode :=
  if p.isEmpty then some .directory else (t.nodes.find? (·.1 = p)).map (·.2)

/-- Goes on from a place by one name of a path. Only a directory leads on, also to itself. -/
def step (t : FileTree) (here : Place) (name : String) : Except FileError Place :=
  if t.node? here != some .directory then .error .notDirectory
  else if name = "" || name = "." then .ok here
  else if name = ".." then .ok here.dropLast
  else if name.utf8ByteSize > maxName then .error .nameTooLong
  else if (t.node? (here ++ [name])).isSome then .ok (here ++ [name])
  else .error .notFound

def canonical (t : FileTree) (here : Place) (path : String) : Except FileError Place :=
  if path.toList.contains '\x00' then .error .nulInPath
  else if path.isEmpty then .error .notFound
  else (Path.names path).foldlM t.step (if Path.isAbsolute path then [] else here)

def find (t : FileTree) (here : Place) (path : String) : Except FileError Place :=
  if path.utf8ByteSize > maxPath && !path.toList.contains '\x00' then .error .nameTooLong
  else t.canonical here path

def decode (bytes : List UInt8) : Except FileError String :=
  match String.fromUTF8? ⟨bytes.toArray⟩ with
  | some s => .ok s
  | none => .error .notUtf8

def lines (t : FileTree) (p : Place) : List (Except FileError (List Char)) :=
  match t.node? p with
  | some (.file bytes) => (Text.lines 10 bytes).map fun l => (decode l).map String.toList
  | some .sink | some .full => []
  | some .directory => [.error .isDirectory]
  | none => [.error .notFound]

def text (t : FileTree) (p : Place) : Except FileError String :=
  match t.node? p with
  | some (.file bytes) => decode bytes
  | some .sink | some .full => .ok ""
  | some .directory => .error .isDirectory
  | none => .error .notFound

def writable (t : FileTree) (p : Place) : Except FileError Unit :=
  match t.node? p with
  | some .directory => .error .isDirectory
  | some _ => .ok ()
  | none => .error .notFound

def hasRoom (t : FileTree) (p : Place) (bytes : List UInt8) : Bool :=
  bytes.isEmpty || t.node? p != some .full

def overwrite (t : FileTree) (p : Place) (offset : Nat) (bytes : List UInt8) : FileTree :=
  ⟨t.nodes.map fun (q, n) =>
    match n with
    | .file old =>
      if q = p then (q, .file (old.take offset ++ bytes ++ old.drop (offset + bytes.length)))
      else (q, n)
    | n => (q, n)⟩

end FileTree

end CueSheet
