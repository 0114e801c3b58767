import Reactors.Script.ClassBlock
import Reactors.Script.Overrides

/-! # Constructing the instances

    Every instance is constructed by a call of its class, and given the values that the class does
    not give it.

    In the targeted style these are assigned one by one after the call, overrides before defaults,
    since a default may read a parameter that is overridden.  In the bulk-merge style all values go
    into the call as keywords, save the defaults that read parameters: they read the instance, so
    they are assigned once it is there.
-/

namespace Reactors

namespace Script

/-- One statement of the construction of an instance. -/
inductive Statement where
  /-- Calls the class and binds the variable of the instance. -/
  | construct (node : NodeId) (path className : String) (keywords : List Entry)
  /-- Assigns a value to a field of the instance. -/
  | store (node : NodeId) (path : String) (entry : Entry)
  deriving DecidableEq

/-- A value as a keyword argument. -/
def keywordText (e : Entry) : String := fieldName e.name ++ "=" ++ e.text

/-- The text of a statement. -/
def Statement.text : Statement → String
  | construct _ path className keywords =>
    path ++ " = " ++ className ++ "(" ++ ", ".intercalate (keywords.map keywordText) ++ ")"
  | store _ path e => path ++ "." ++ fieldName e.name ++ " = " ++ e.text

namespace Overrides

/-- Whether an entry is a default that reads parameters. -/
def isDeferred (e : Entry) : Bool := e.origin = .default && e.readsParameters

/-- The statements that construct an instance of a class with these values. -/
def construction (style : Options.Style) (className : String) (o : Overrides) : List Statement :=
  match style with
  | .targeted =>
    -- the class itself has given the instance all other values
    let injected := o.entries.filter Entry.needsInjection
    let (overrides, defaults) := injected.partition fun e => e.origin = .override
    .construct o.node o.path className [] :: (overrides ++ defaults).map (.store o.node o.path)
  | .bulkMerge =>
    let (deferred, keywords) := o.distinct.partition isDeferred
    .construct o.node o.path className keywords :: deferred.map (.store o.node o.path)

end Overrides

/-- The text of statements, one a line. -/
def constructionText (ss : List Statement) : String := "\n".intercalate (ss.map Statement.text)

end Script

namespace Program

open Script

/-- The statements that construct the instance that these are the values of. -/
def construction? (p : Program) (o : Overrides) : Lookup (List Statement) := do
  let n ← p.assembly.node? o.node
  let name ← p.className? n.reactor
  return o.construction p.options.style name

end Program

end Reactors
