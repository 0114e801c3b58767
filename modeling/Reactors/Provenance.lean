import Reactors.Json.Writer
import Reactors.Sha256

/-! # Provenance

    What generated code was made from: the digest of the model's text and the version of the program
    that made it.
-/

namespace Reactors

/-- The name of the command. -/
def commandName : String := "lfpy"

/-- The version of the command. -/
def version : String := "0.3.1"

/-- Where generated code comes from. -/
structure Provenance where
  /-- The digest of the text, in hexadecimal digits. -/
  sourceHash : String
  /-- The version of the program. -/
  version : String
  deriving DecidableEq

namespace Provenance

/-- The provenance of what this program makes from a text. -/
def ofSource (source : String) : Provenance :=
  { sourceHash := Sha256.hexDigest source, version := Reactors.version }

/-- The provenance as a JSON object on lines of its own. -/
def json (v : Provenance) : String :=
  Json.writeStrings [("source_hash", v.sourceHash), ("compiler_version", v.version)] ++ "\n"

/-- The provenance as comments for the top of a module. -/
def header (v : Provenance) : List String :=
  ["Generated by " ++ commandName ++ " " ++ v.version ++ ". Do not edit.",
   "source sha256: " ++ v.sourceHash]

end Provenance

end Reactors
