import Reactors.File

/-! # Disks in memory

    A disk as a value: directories and files at places, and a directory to start from.  A program
    that runs on any file system runs on such a disk too, so that what it does to files is a
    function and can be spoken about.

    A path leads from the start, or from the root if it begins with a slash, one name at a time.
    Each step has to start in a directory; a file or nothing on the way is a fault, even where the
    next name is `..`.
-/

namespace Reactors

/-! ## Places and what is there -/

/-- A place: the names of what leads to it, the innermost first.  The root is the empty list. -/
abbrev Place := List String

/-- What can be at a place. -/
inductive Item where
  /-- A directory. -/
  | directory
  /-- A file with a text in it. -/
  | text (content : String)
  /-- A file whose bytes are not a text. -/
  | binary
  deriving DecidableEq

/-- Directories and files. -/
structure Disk where
  /-- What is at a place; `none` if nothing is. -/
  item? : Place → Option Item
  /-- The directory in which a path without a leading slash starts. -/
  start : Place

namespace Disk

/-- The disk with nothing on it but the root, where paths start. -/
def blank : Disk where
  item? place := if place = [] then some .directory else none
  start := []

/-- The disk with `item` at `place`, whatever was there before. -/
def put (d : Disk) (place : Place) (item : Item) : Disk :=
  { d with item? := fun p => if p = place then some item else d.item? p }

@[simp] theorem item?_put_self (d : Disk) (place : Place) (item : Item) :
    (d.put place item).item? place = some item := if_pos rfl

theorem item?_put_of_ne (d : Disk) {p place : Place} (item : Item) (h : p ≠ place) :
    (d.put place item).item? p = d.item? p := if_neg h

end Disk

/-! ## Paths -/

/-- A path, taken apart at its slashes. -/
structure Path where
  /-- Whether it begins with a slash, and so at the root. -/
  isAbsolute : Bool
  /-- The names in it.  Slashes in a row count as one. -/
  names : List String
  /-- Whether it ends in a slash, and so can be one of a directory only. -/
  endsInSlash : Bool
  deriving DecidableEq

namespace Path

/-- The names between the slashes of a path, empty ones too. -/
def pieces : List Char → List (List Char)
  | [] => [[]]
  | '/' :: cs => [] :: pieces cs
  | c :: cs =>
    match pieces cs with
    | [] => [[c]]
    | p :: ps => (c :: p) :: ps

/-- The path that a text spells. -/
def ofText (text : String) : Path where
  isAbsolute := text.toList.head? = some '/'
  names := ((pieces text.toList).filter fun p => p ≠ []).map String.ofList
  endsInSlash := text.toList.getLast? = some '/'

/-- The most bytes that a name can have. -/
def maxName : Nat := 255

/-- The most bytes that the text of a path can have. -/
def maxText : Nat := 4095

/-- The path that a text spells, if it is neither empty nor too long. -/
def read (text : String) : Except FileFault Path :=
  if text.isEmpty then .error .notFound
  else if maxText < text.utf8ByteSize then .error .nameTooLong
  else .ok (ofText text)

end Path

/-! ## Following a path -/

namespace Disk

/-- Refuses a place that is not one of a directory. -/
def requireDirectory (d : Disk) (place : Place) : Except FileFault Unit :=
  match d.item? place with
  | none => .error .notFound
  | some .directory => .ok ()
  | some _ => .error .notDirectory

/-- Follows one name out of a directory.  The place that it leads to may be empty. -/
def step (d : Disk) (place : Place) (name : String) : Except FileFault Place := do
  d.requireDirectory place
  if name = "." then return place
  else if name = ".." then return place.tail
  else if Path.maxName < name.utf8ByteSize then throw .nameTooLong
  else return name :: place

/-- Where a path starts. -/
def origin (d : Disk) (path : Path) : Place :=
  if path.isAbsolute then [] else d.start

/-- Follows all names of a path. -/
def follow (d : Disk) (path : Path) : Except FileFault Place :=
  path.names.foldlM d.step (d.origin path)

/-! ## Reading and writing -/

/-- The text of the file that a path leads to. -/
def readText (d : Disk) (text : String) : Except FileFault String := do
  let path ← Path.read text
  match d.item? (← d.follow path) with
  | none => throw .notFound
  | some .directory => throw .isDirectory
  | some (.text content) => if path.endsInSlash then throw .notDirectory else return content
  | some .binary => if path.endsInSlash then throw .notDirectory else throw .notText

/-- The place of the file that a path asks to be made or replaced.  Its last name has to stand in
    a directory, and a slash behind that name asks for a directory, whatever is there. -/
def target (d : Disk) (path : Path) : Except FileFault Place :=
  match path.names.getLast? with
  | none => .error .isDirectory
  | some name => do
    let parent ← d.follow { path with names := path.names.dropLast }
    d.requireDirectory parent
    if path.endsInSlash then throw .isDirectory
    let place ← d.step parent name
    if d.item? place = some .directory then throw .isDirectory
    return place

/-- The disk after a text is written to the file that a path leads to. -/
def writeText (d : Disk) (text content : String) : Except FileFault Disk := do
  let path ← Path.read text
  return d.put (← d.target path) (.text content)

/-- Access to the files of a disk that is at hand as a state; a failed write leaves it as it is. -/
instance : FileSystem (StateM Disk) where
  readText path := do return (← get).readText path
  writeText path content := modifyGet fun d =>
    match d.writeText path content with
    | .ok written => (.ok (), written)
    | .error fault => (.error fault, d)

end Disk

end Reactors
