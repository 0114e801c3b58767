import Reactors.Catalog.Basic

/-! # Inherited parameters

    The lineage of a reactor is the reactor and everything it extends, directly or not, each once.
    Superclasses come before the reactor that names them, in the order in which it names them, and
    the reactor itself comes last.  The parameters visible on a reactor are those of its lineage.

    The lineage is found by depth-first search that marks a reactor on entering it and lists it on
    leaving.  So a circle of reactors ends the search like a reactor met twice does.
-/

namespace Reactors.Catalog

/-- The reactors that a reactor extends; an identity without a reactor extends nothing. -/
def supers (c : Catalog) (r : ReactorId) : List ReactorId :=
  match c.reactor? r with
  | some d => d.supers
  | none => []

/-! ## The search -/

/-- How far a search is. -/
structure Search where
  /-- The reactors that were entered. -/
  entered : List ReactorId
  /-- The reactors that were left, in that order. -/
  left : List ReactorId

/-- Searches from `r`.  Every nested search enters a reactor that was not entered yet, so `fuel` has
    to be no more than the number of identities there are. -/
def search (c : Catalog) : (fuel : Nat) → Search → ReactorId → Search
  | 0, s, _ => s
  | fuel + 1, s, r =>
    if r ∈ s.entered then s
    else
      -- marked before its superclasses are searched, so that a circle ends here
      let s := (c.supers r).foldl (search c fuel) { s with entered := r :: s.entered }
      { s with left := s.left ++ [r] }

/-- The reactor and everything it extends, superclasses first.  An identity without a reactor may be
    the last one of a chain of all reactors, hence one more than their number. -/
def lineage (c : Catalog) (r : ReactorId) : List ReactorId :=
  (c.search (c.reactors.size + 1) ⟨[], []⟩ r).left

/-! ## Visible parameters -/

/-- The parameters visible on a reactor: those of its lineage, in order. -/
def visibleIds? (c : Catalog) (r : ReactorId) : Lookup (List ParamId) := do
  let ds ← (c.lineage r).mapM c.reactor?
  return ds.flatMap (·.params)

/-- The parameters visible on a reactor, looked up. -/
def visible? (c : Catalog) (r : ReactorId) : Lookup (List Parameter) := do
  let ps ← c.visibleIds? r
  ps.mapM c.parameter?

/-- The parameter that a name stands for in a list of parameters: the last one of that name. -/
def lastNamed? (ps : List Parameter) (name : String) : Option Parameter :=
  ps.reverse.find? fun p => p.name == name

/-- The parameter that a name stands for on a reactor. -/
def findParameter? (c : Catalog) (r : ReactorId) (name : String) : Lookup (Option Parameter) := do
  let ps ← c.visible? r
  return lastNamed? ps name

/-! ## Repeated names -/

/-- Pairs every parameter whose name has occurred with the first one of that name.  `firsts` are the
    first parameters of the names that have occurred. -/
def repetitionsFrom (firsts : List Parameter) : List Parameter → List (Parameter × Parameter)
  | [] => []
  | p :: ps =>
    match firsts.find? fun q => q.name == p.name with
    | some first => (first, p) :: repetitionsFrom firsts ps
    | none => repetitionsFrom (firsts ++ [p]) ps

/-- The visible parameters of a reactor that repeat the name of an earlier one, each behind the
    first parameter of its name. -/
def repetitions? (c : Catalog) (r : ReactorId) : Lookup (List (Parameter × Parameter)) := do
  let ps ← c.visible? r
  return repetitionsFrom [] ps

end Reactors.Catalog
