/-! # Identities

    Reactors, parameters and nodes of the instance tree refer to one another by identity, never by
    name.  An identity is the position of its element among those of its kind, counted in order of
    creation.

    An identity may have no element.  A function that looks elements up therefore answers in
    `Lookup`, and `none` says that some identity it had to follow leads nowhere.
-/

namespace Reactors

/-- The identity of a reactor. -/
structure ReactorId where
  /-- Position among the reactors. -/
  index : Nat
  deriving DecidableEq, Inhabited

/-- The identity of a parameter, among the parameters of all reactors. -/
structure ParamId where
  /-- Position among the parameters. -/
  index : Nat
  deriving DecidableEq, Inhabited

/-- The identity of a node of the instance tree. -/
structure NodeId where
  /-- Position among the nodes. -/
  index : Nat
  deriving DecidableEq, Inhabited

/-- An answer that follows identities; `none` if one of them has no element. -/
abbrev Lookup (α : Type) : Type := Option α

end Reactors
