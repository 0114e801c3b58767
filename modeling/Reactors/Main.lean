import Reactors.Command.Run

/-! # The command

    Runs the command on the disk and the standard streams.
-/

namespace Reactors

/-- The fault that an error of the system stands for. -/
def FileFault.ofError : IO.Error → FileFault
  | .noFileOrDirectory .. => .notFound
  | .noSuchThing .. => .notFound
  | .inappropriateType _ 21 _ => .isDirectory
  | .inappropriateType .. => .notDirectory
  | .invalidArgument _ 36 _ => .nameTooLong
  | error => .other (toString error)

/-- Access to the disk. -/
instance : FileSystem IO where
  readText path := do
    try
      let file ← IO.FS.Handle.mk path .read
      match String.fromUTF8? (← file.readBinToEnd) with
      | some text => return .ok text
      | none => return .error .notText
    catch error => return .error (.ofError error)
  writeText path text := do
    try
      IO.FS.writeFile path text
      return .ok ()
    catch error => return .error (.ofError error)

end Reactors

/-- The entry point of the command. -/
def main (args : List String) : IO UInt32 := do
  let outcome ← Reactors.Command.respond args
  IO.eprint outcome.stderr
  IO.print outcome.stdout
  return outcome.code.toUInt32
