import Reactors.Program
import Reactors.Script.Literal

/-! # Expressions of the generated code

    An initializer is written as one expression for each of its values.  A value that refers to a
    parameter reads it: through `self` inside a class, or through the variable of an instance.  The
    instance that is read is part of the expression, besides the path that names its variable.
-/

namespace Reactors

/-! ## Paths -/

/-- The variable of an instance: the names from the root down to it, and an ending. -/
def Assembly.path? (a : Assembly) (i : NodeId) : Lookup String := do
  let names ← a.names? i
  return "_".intercalate names ++ "_lf"

namespace Script

/-- A read of a parameter of an instance. -/
structure Access where
  /-- The instance. -/
  node : NodeId
  /-- Its variable. -/
  path : String
  /-- The name of the parameter. -/
  name : String
  deriving DecidableEq

/-- The variable, a point and the name. -/
def Access.text (a : Access) : String := a.path ++ "." ++ a.name

/-- The field that holds the parameter of a name. -/
def fieldName (name : String) : String := "_" ++ name

/-- The expression of one value. -/
inductive Expr where
  /-- A constant. -/
  | constant (text : String)
  /-- A field of the object under construction, inside its class. -/
  | field (name : String)
  /-- A parameter of the instance whose initializer this is. -/
  | own (access : Access)
  /-- A parameter of the instance that places the one whose initializer this is. -/
  | forwarded (access : Access)
  deriving DecidableEq

namespace Expr

/-- The text of an expression. -/
def text : Expr → String
  | constant text => text
  | field name => "self." ++ fieldName name
  | own access => access.text
  | forwarded access => access.text

/-- Whether an expression reads a parameter. -/
def isRead : Expr → Bool
  | constant _ => false
  | _ => true

end Expr

/-! ## Scopes -/

/-- Where an expression stands. -/
inductive Scope where
  /-- In the class of a reactor. -/
  | inClass
  /-- Where an instance is constructed. -/
  | atInstance (node : NodeId)
  deriving DecidableEq

/-- The expression of a value in a scope. -/
def express? (p : Program) (scope : Scope) : Value → Lookup Expr
  | .constant k => some (.constant (literal k))
  | .param id => do
    let q ← p.catalog.parameter? id
    match scope with
    | .inClass => return .field q.name
    | .atInstance node =>
      let path ← p.assembly.path? node
      return .own ⟨node, path, q.name⟩

/-! ## Several terms -/

/-- One term stands bare, several are a tuple, and no term is no expression. -/
def tuple? (separator : String) : List String → Option String
  | [] => none
  | [t] => some t
  | ts => some ("(" ++ separator.intercalate ts ++ ")")

/-! ## Types -/

/-- The type annotation for the type of a parameter as written: arrays are lists, the usual type
    names have Python names, any other type stands as it is, and a blank one is none. -/
def typeName? (typeText : Option String) : Option String := do
  let declared := Text.trim (← typeText).toList
  if declared.isEmpty then none
  else if declared.reverse.take 2 = [']', '['] then some "list"
  else
    match String.ofList declared with
    | "int" | "long" | "time" => some "int"
    | "float" | "double" => some "float"
    | "bool" => some "bool"
    | "string" | "str" => some "str"
    | other => some other

end Script

end Reactors
