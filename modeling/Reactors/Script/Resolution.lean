import Reactors.Fault
import Reactors.Script.Expr

/-! # Resolving the parameters of instances

    A slot, that is a parameter of one instance, gets its value from exactly one source: the last
    assignment of the instance that sets the parameter, or else the default of the parameter.  The
    two are never mixed.

    A default is written in the scope of the reactor, so its references read the instance itself.
    An assignment is written where the instance is placed, so its references read the instance
    around it; the root has none around it, and its assignments must not refer to parameters.
-/

namespace Reactors

namespace Script

/-- An answer that follows identities and may meet a fault of a parameter. -/
abbrev Resolving (α : Type) : Type := ExceptT ParameterFault Lookup α

/-- The value of a slot. -/
structure Resolution where
  /-- One expression for each value of the source. -/
  terms : List Expr
  /-- Which source it was. -/
  origin : Origin
  deriving DecidableEq

/-- Whether the value depends on other parameters, so that it is another one for each instance. -/
def Resolution.readsParameters (r : Resolution) : Bool := r.terms.any Expr.isRead

end Script

namespace Program

open Script

variable (p : Program)

/-- The instance that the assignments of `host` read from: the one around it. -/
def forwardScope? (host : NodeId) : Lookup (Option NodeId) := p.assembly.ancestor? host 1

/-! ## The two sources -/

/-- The expression of a value of an assignment at `span`, which sets `q` on `host`. -/
def forward (q : Catalog.Parameter) (host : NodeId) (span : Span) : Value → Resolving Expr
  | .constant k => return .constant (literal k)
  | .param id => do
    match ← p.forwardScope? host with
    | none =>
      let n ← p.assembly.node? host
      throw (.unboundScope q.name n.name span)
    | some outer =>
      let path ← p.assembly.path? outer
      let referenced ← p.catalog.parameter? id
      return .forwarded ⟨outer, path, referenced.name⟩

/-- The value that an assignment gives to `q` on `host`. -/
def resolveOverride (q : Catalog.Parameter) (host : NodeId) (x : Assignment) :
    Resolving Resolution := do
  if x.values.isEmpty then throw (.emptyInitializer q.name .override x.span)
  let terms ← x.values.mapM (p.forward q host x.span)
  return { terms, origin := .override }

/-- The value that the default of `q` gives on `host`. -/
def resolveDefault (q : Catalog.Parameter) (host : NodeId) : Resolving Resolution := do
  if q.default.isEmpty then throw (.emptyInitializer q.name .default q.span)
  let terms ← q.default.mapM fun v => (express? p (.atInstance host) v : Lookup Expr)
  return { terms, origin := .default }

/-! ## Slots -/

/-- The value of a slot. -/
def resolve (s : Slot) : Resolving Resolution := do
  let setting ← p.assembly.settingOf? s
  let q ← p.catalog.parameter? s.param
  match setting with
  | some x => p.resolveOverride q s.host x
  | none => p.resolveDefault q s.host

/-- The text of the value of a slot. -/
def initializerText (s : Slot) : Resolving String := do
  let r ← p.resolve s
  match tuple? p.options.separator (r.terms.map Expr.text) with
  | some text => return text
  | none =>
    -- the value would be reported as that of a default, whatever its source was
    let q ← p.catalog.parameter? s.param
    throw (.emptyInitializer q.name .default q.span)

/-- The value of a slot together with its text. -/
def initializer (s : Slot) : Resolving (Resolution × String) := do
  let r ← p.resolve s
  match tuple? p.options.separator (r.terms.map Expr.text) with
  | some text => return (r, text)
  | none =>
    let q ← p.catalog.parameter? s.param
    throw (.emptyInitializer q.name r.origin q.span)

end Program

end Reactors
