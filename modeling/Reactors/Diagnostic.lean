import Reactors.Span

/-! # Diagnostics

    What is reported about a program: errors, which stop it from being emitted, and warnings.
-/

namespace Reactors

/-- How grave a diagnostic is. -/
inductive Diagnostic.Level where
  | error
  | warning
  deriving DecidableEq

/-- The stable code of a kind of diagnostic.  Codes `E01..` are about loading, `E02..` about
    resolution, and `W03..` are advice. -/
structure Diagnostic.Code where
  text : String
  deriving DecidableEq

namespace Diagnostic.Code

def unknownReactor : Code := ⟨"E0101"⟩
def unknownParameter : Code := ⟨"E0102"⟩
def duplicateReactor : Code := ⟨"E0103"⟩
def cyclicExtends : Code := ⟨"E0104"⟩
def unknownTimeUnit : Code := ⟨"E0105"⟩
def malformedModel : Code := ⟨"E0106"⟩
def duplicateInstance : Code := ⟨"E0107"⟩
def unboundScope : Code := ⟨"E0201"⟩
def emptyInitializer : Code := ⟨"E0202"⟩
def ambiguousName : Code := ⟨"W0301"⟩
def foreignForward : Code := ⟨"W0302"⟩

end Diagnostic.Code

/-- A second place that a diagnostic points at. -/
structure Diagnostic.Note where
  /-- Where. -/
  span : Span
  /-- What is there. -/
  label : String
  deriving DecidableEq

/-- One reported problem. -/
structure Diagnostic where
  /-- How grave it is. -/
  level : Diagnostic.Level
  /-- Its kind. -/
  code : Option Diagnostic.Code := none
  /-- Where it is. -/
  span : Span
  /-- What it is. -/
  message : String
  /-- Other places that have to do with it. -/
  notes : List Diagnostic.Note := []
  /-- What to do about it. -/
  hint : Option String := none
  deriving DecidableEq

namespace Diagnostic

/-- Whether a diagnostic is an error. -/
def isError (d : Diagnostic) : Bool := d.level = .error

/-- Whether a list of diagnostics has an error in it. -/
def hasErrors (ds : List Diagnostic) : Bool := ds.any isError

/-- The word for a level. -/
def Level.text : Level → String
  | error => "error"
  | warning => "warning"

/-- The level, with the code if there is one, and the message. -/
def headline (d : Diagnostic) : String :=
  match d.code with
  | some code => d.level.text ++ "[" ++ code.text ++ "]: " ++ d.message
  | none => d.level.text ++ ": " ++ d.message

/-- The lines below the headline: the span if it is in a text, the notes and the hint. -/
def details (d : Diagnostic) : List String :=
  (if d.span = .nowhere then [] else ["at: " ++ d.span.text]) ++
    d.notes.map (fun n => "note: " ++ n.label ++ " (" ++ n.span.text ++ ")") ++
    (d.hint.map ("hint: " ++ ·)).toList

/-- The whole text, the details indented by two spaces. -/
def text (d : Diagnostic) : String :=
  d.headline ++ String.join (d.details.map ("\n  " ++ ·))

end Diagnostic

end Reactors
