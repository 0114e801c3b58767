/-! # Files

    What can go wrong with a file, and the two operations on files that the program needs.  They
    are given by a class, so that the program can be run on a disk or on anything that behaves
    like one.
-/

namespace Reactors

/-- Why a file could not be read or written. -/
inductive FileFault where
  /-- There is no such file, or no directory to put it in. -/
  | notFound
  /-- The path is one of a directory. -/
  | isDirectory
  /-- The path leads through a file as if it were a directory. -/
  | notDirectory
  /-- The path, or a name in it, has more bytes than one can have. -/
  | nameTooLong
  /-- The content is not UTF-8. -/
  | notText
  /-- Anything else, in the words of the system. -/
  | other (text : String)
  deriving DecidableEq

/-- The wording of a fault. -/
def FileFault.text : FileFault → String
  | notFound => "No such file or directory (os error 2)"
  | isDirectory => "Is a directory (os error 21)"
  | notDirectory => "Not a directory (os error 20)"
  | nameTooLong => "File name too long (os error 36)"
  | notText => "stream did not contain valid UTF-8"
  | other text => text

/-- Access to files by their paths. -/
class FileSystem (m : Type → Type) where
  /-- The text of a file. -/
  readText : String → m (Except FileFault String)
  /-- Replaces the content of a file by a text. -/
  writeText : String → String → m (Except FileFault Unit)

end Reactors
