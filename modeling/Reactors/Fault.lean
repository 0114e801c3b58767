import Reactors.Diagnostic
import Reactors.File
import Reactors.Json.Decode
import Reactors.Time

/-! # Faults

    The causes of everything that is reported: `ParameterFault` for faults of single parameters,
    which turn up in resolution and emission, and `LoadFault` for faults of a model, which turn up
    when it is read and bound.  Each has a message and becomes a diagnostic.
-/

namespace Reactors

/-! ## Faults of parameters -/

/-- Where the initializer of a parameter comes from. -/
inductive Origin where
  /-- The default of its declaration. -/
  | default
  /-- An assignment of the instance. -/
  | override
  deriving DecidableEq

/-- The word for an origin. -/
def Origin.text : Origin → String
  | default => "default"
  | override => "override"

/-- A fault of one parameter. -/
inductive ParameterFault where
  /-- An assignment of the root refers to a parameter, and there is no instance to read it from. -/
  | unboundScope (param inst : String) (span : Span)
  /-- An initializer without values. -/
  | emptyInitializer (param : String) (origin : Origin) (span : Span)
  /-- Two parameters of one reactor, inherited ones included, have the same name. -/
  | ambiguousName (reactor name : String) (first second : Span)
  deriving DecidableEq

namespace ParameterFault

/-- The wording of a fault. -/
def message : ParameterFault → String
  | unboundScope param inst _ =>
    "cannot forward a parameter into `" ++ param ++ "` of `" ++ inst ++
      "`: no enclosing instance"
  | emptyInitializer param origin _ =>
    origin.text ++ " initializer of parameter `" ++ param ++ "` is empty"
  | ambiguousName reactor name _ _ =>
    "reactor `" ++ reactor ++ "` declares parameter `" ++ name ++ "` more than once"

/-- Whether a program with this fault cannot be emitted; an ambiguous name is only advice. -/
def isFatal : ParameterFault → Bool
  | ambiguousName .. => false
  | _ => true

/-- The diagnostic of a fault: an error if it is fatal, a warning otherwise. -/
def toDiagnostic (f : ParameterFault) : Diagnostic :=
  let level : Diagnostic.Level := if f.isFatal then .error else .warning
  match f with
  | unboundScope _ _ span =>
    { level, code := some .unboundScope, span, message := f.message
      hint := some "the root instance has no enclosing reactor to forward parameters from" }
  | emptyInitializer _ _ span =>
    { level, code := some .emptyInitializer, span, message := f.message }
  | ambiguousName _ _ first second =>
    { level, code := some .ambiguousName, span := second, message := f.message
      notes := [⟨first, "first declared here"⟩]
      hint := some "only one accessor is generated; the later field initializer wins" }

end ParameterFault

/-! ## Faults of models -/

/-- A fault of a model. -/
inductive LoadFault where
  /-- The file of the model cannot be read. -/
  | unreadable (path : String) (fault : FileFault)
  /-- The text is no model document. -/
  | badDocument (error : Json.ReadError)
  /-- Two reactors have one name. -/
  | duplicateReactor (name : String) (span first : Span)
  /-- Two children of one instance have one name. -/
  | duplicateInstance (name parent : String) (span first : Span)
  /-- A name of a reactor that is not declared. -/
  | unknownReactor (name : String) (span : Span)
  /-- A name of a parameter that the reactor neither declares nor inherits. -/
  | unknownParameter (reactor name : String) (span : Span)
  /-- Reactors that extend one another in a circle, given by their names. -/
  | cyclicExtends (chain : List String) (span : Span)
  /-- A time value whose unit is none. -/
  | unknownTimeUnit (unit : String) (span : Span)
  /-- Anything else that a model must not hold. -/
  | malformed (message : String) (span : Span)
  /-- A fault of a parameter. -/
  | parameter (fault : ParameterFault)
  deriving DecidableEq

namespace LoadFault

/-- The wording of a fault. -/
def message : LoadFault → String
  | unreadable path fault => path ++ ": " ++ fault.text
  | badDocument error => "malformed program model: " ++ error.message
  | duplicateReactor name _ _ => "reactor `" ++ name ++ "` is declared more than once"
  | duplicateInstance name parent _ _ =>
    "instance `" ++ name ++ "` is declared more than once in `" ++ parent ++ "`"
  | unknownReactor name _ => "unknown reactor `" ++ name ++ "`"
  | unknownParameter reactor name _ =>
    "reactor `" ++ reactor ++ "` has no parameter `" ++ name ++ "`"
  | cyclicExtends chain _ => "cyclic extends: " ++ " -> ".intercalate chain
  | unknownTimeUnit unit _ => Time.Unit.unknownText unit
  | malformed message _ => message
  | parameter fault => fault.message

/-- An error with a code and nothing besides. -/
def plainError (code : Diagnostic.Code) (span : Span) (message : String) : Diagnostic :=
  { level := .error, code := some code, span, message }

/-- The diagnostic of a fault. -/
def toDiagnostic (f : LoadFault) : Diagnostic :=
  match f with
  | unreadable .. => plainError .malformedModel .nowhere f.message
  | badDocument _ => plainError .malformedModel .nowhere f.message
  | malformed _ span => plainError .malformedModel span f.message
  | duplicateReactor _ span first =>
    { plainError .duplicateReactor span f.message with
      notes := [⟨first, "first declared here"⟩] }
  | duplicateInstance _ _ span first =>
    { plainError .duplicateInstance span f.message with
      notes := [⟨first, "first declared here"⟩] }
  | unknownReactor _ span => plainError .unknownReactor span f.message
  | unknownParameter _ _ span => plainError .unknownParameter span f.message
  | cyclicExtends _ span => plainError .cyclicExtends span f.message
  | unknownTimeUnit _ span => plainError .unknownTimeUnit span f.message
  | parameter fault => fault.toDiagnostic

end LoadFault

end Reactors
