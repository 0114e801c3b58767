import Reactors.Script.Resolution

/-! # Classes of the generated code

    Every reactor becomes a class.  Its constructor sets a field for each visible parameter to the
    default, and a property for each name reads the field.  Fields and properties of inherited
    parameters are repeated in the class itself.
-/

namespace Reactors

namespace Script

/-! ## The parts of a class -/

/-- One line of a constructor body. -/
inductive Line where
  /-- A comment. -/
  | comment (text : String)
  /-- Sets the field of a parameter, which has its name, to an initializer. -/
  | assign (param : ParamId) (name : String) (typeName : Option String) (terms : List Expr)
      (value : String)
  /-- Stores the keyword arguments over the fields. -/
  | mergeKeywords
  deriving DecidableEq

/-- The class of one reactor. -/
structure ClassBlock where
  /-- The reactor. -/
  reactor : ReactorId
  /-- The name of the class. -/
  name : String
  /-- The body of the constructor. -/
  skeleton : List Line
  /-- The names that have a property. -/
  properties : List String
  deriving DecidableEq

/-- The name of the class for a reactor's name. -/
def className (reactor : String) : String := "_" ++ reactor

/-- The names without those that occurred before. -/
def firstOccurrences (seen : List String) : List String → List String
  | [] => []
  | n :: ns => if n ∈ seen then firstOccurrences seen ns else n :: firstOccurrences (n :: seen) ns

/-- What follows the fields: in the bulk-merge style, the keywords. -/
def mergeLines : Options.Style → List Line
  | .targeted => []
  | .bulkMerge => [.comment "Handle parameters that are set in instantiation", .mergeKeywords]

/-! ## Text -/

/-- The text of a line, without indentation. -/
def Line.text : Line → String
  | comment text => "# " ++ text
  | assign _ name none _ value => "self." ++ fieldName name ++ " = " ++ value
  | assign _ name (some type) _ value => "self." ++ fieldName name ++ ":" ++ type ++ " = " ++ value
  | mergeKeywords => "self.__dict__.update(kwargs)"

/-- The lines of a constructor body, without indentation. -/
def skeletonText (ls : List Line) : String := "\n".intercalate (ls.map Line.text)

/-- The property of a name. -/
def propertyText (o : Options) (name : String) : String :=
  "@property\ndef " ++ name ++ "(self):\n" ++ o.margin 1 ++ "return self." ++ fieldName name ++
    (if o.lintMarkers then " # pylint: disable=no-member" else "") ++ "\n"

/-- The properties, with an empty line between two of them. -/
def propertiesText (o : Options) (names : List String) : String :=
  "\n".intercalate (names.map (propertyText o))

/-- Puts a margin before every line that is not empty and a line feed behind every line. -/
def indented (margin : String) (text : List Char) : String :=
  String.join ((Text.lines text).map fun l =>
    if l.isEmpty then "\n" else margin ++ String.ofList l ++ "\n")

/-- Whether a text has a line that is more than a comment. -/
def hasStatement (text : List Char) : Bool :=
  (Text.lines text).any fun l => (Text.trimStart l).head? != some '#'

/-- The head of the constructor. -/
def signature : Options.Style → String
  | .targeted => "def __init__(self):"
  | .bulkMerge => "def __init__(self, **kwargs):"

/-- The text of a class.  A constructor without a statement gets a `pass`. -/
def ClassBlock.text (o : Options) (b : ClassBlock) : String :=
  let skeleton := (skeletonText b.skeleton).toList
  let properties := (propertiesText o b.properties).toList
  "class " ++ b.name ++ ":\n" ++
    o.margin 1 ++ signature o.style ++ "\n" ++
    indented (o.margin 2) skeleton ++
    (if hasStatement skeleton then "" else o.margin 2 ++ "pass\n") ++
    (if properties.isEmpty then ""
     else "\n" ++ indented (o.margin 1) (Text.trimEnd properties)) ++
    "\n"

end Script

namespace Program

open Script

variable (p : Program)

/-! ## The class of a reactor -/

/-- The line that sets the field of a parameter to the default. -/
def fieldLine (q : Catalog.Parameter) : Resolving Line := do
  let terms ← q.default.mapM fun v => (express? p .inClass v : Lookup Expr)
  match tuple? p.options.separator (terms.map Expr.text) with
  | some value => return .assign q.id q.name (typeName? q.typeText) terms value
  | none => throw (.emptyInitializer q.name .default q.span)

/-- The body of the constructor: the fields of the visible parameters in order. -/
def skeleton (r : ReactorId) : Resolving (List Line) := do
  let qs ← p.catalog.visible? r
  let fields ← qs.mapM p.fieldLine
  return .comment "Define parameters and their default values" :: fields ++
    mergeLines p.options.style

/-- The names of the visible parameters, each once, in the order of their first occurrence. -/
def properties? (r : ReactorId) : Lookup (List String) := do
  let qs ← p.catalog.visible? r
  return firstOccurrences [] (qs.map (·.name))

/-- The name of the class of a reactor. -/
def className? (r : ReactorId) : Lookup String := do
  let d ← p.catalog.reactor? r
  return className d.name

/-- The class of a reactor. -/
def classBlock (r : ReactorId) : Resolving ClassBlock := do
  let skeleton ← p.skeleton r
  let properties ← p.properties? r
  let name ← p.className? r
  return { reactor := r, name, skeleton, properties }

end Program

end Reactors
