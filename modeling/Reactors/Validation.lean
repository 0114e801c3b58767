import Reactors.Fault
import Reactors.Program

/-! # Validating programs

    What can be said about a program before it is emitted: names that are declared twice, which is
    advice, initializers without values, references on the root, which has no instance to read
    from, and references to parameters that the instance read from does not have, which again is
    advice.
-/

namespace Reactors.Program

variable (p : Program)

/-! ## Declarations -/

/-- The warning about a parameter that repeats the name of an earlier one on a reactor. -/
def ambiguity (d : Catalog.Reactor) (pair : Catalog.Parameter × Catalog.Parameter) : Diagnostic :=
  (ParameterFault.ambiguousName d.name pair.2.name pair.1.span pair.2.span).toDiagnostic

/-- What is wrong with a reactor: repeated names among the visible parameters, and own parameters
    with an empty default. -/
def reactorProblems? (d : Catalog.Reactor) : Lookup (List Diagnostic) := do
  let repeated ← p.catalog.repetitions? d.id
  let own ← d.params.mapM p.catalog.parameter?
  let hollow := own.filter fun q => q.default.isEmpty
  return repeated.map (ambiguity d) ++
    hollow.map fun q => (ParameterFault.emptyInitializer q.name .default q.span).toDiagnostic

/-! ## Assignments -/

/-- The warning about an assignment of `n` at `span` that reads `id` from an instance of the reactor
    `outer`, which does not have it. -/
def foreignForward? (n : Assembly.Node) (span : Span) (outer : ReactorId) (id : ParamId) :
    Lookup Diagnostic := do
  let q ← p.catalog.parameter? id
  let owner ← p.catalog.reactor? q.owner
  let reader ← p.catalog.reactor? outer
  return {
    level := .warning
    code := some .foreignForward
    span
    message := "`" ++ n.name ++ "` forwards `" ++ owner.name ++ "." ++ q.name ++
      "`, which reactor `" ++ reader.name ++ "` does not declare"
    notes := [⟨q.span, "parameter declared here"⟩] }

/-- The warnings about the references of an assignment that is read from an instance of `outer`. -/
def foreignForwards? (n : Assembly.Node) (span : Span) (outer : ReactorId) :
    List ParamId → Lookup (List Diagnostic)
  | [] => some []
  | id :: ids => do
    let visible ← p.catalog.visibleIds? outer
    let rest ← foreignForwards? n span outer ids
    if id ∈ visible then return rest
    else return (← p.foreignForward? n span outer id) :: rest

/-- What is wrong with an assignment of `n`, whose references are read from `scope`. -/
def assignmentProblems? (n : Assembly.Node) (scope : Option NodeId) (x : Assignment) :
    Lookup (List Diagnostic) := do
  let target ← p.catalog.parameter? x.target
  if x.values.isEmpty then
    return [(ParameterFault.emptyInitializer target.name .override x.span).toDiagnostic]
  else
    match scope, x.values.filterMap Value.reference? with
    | none, [] => return []
    | none, _ :: _ =>
      -- one report for the assignment, however many references it has
      return [(ParameterFault.unboundScope target.name n.name x.span).toDiagnostic]
    | some outer, ids => do
      if ids.isEmpty then return []
      else
        let m ← p.assembly.node? outer
        p.foreignForwards? n x.span m.reactor ids

/-- What is wrong with the assignments of an instance. -/
def nodeProblems? (n : Assembly.Node) : Lookup (List Diagnostic) := do
  let scope ← p.assembly.ancestor? n.id 1
  let problems ← n.assignments.mapM (p.assignmentProblems? n scope)
  return problems.flatten

/-! ## The whole program -/

/-- Everything that is wrong with the reactors, in order. -/
def catalogProblems? : Lookup (List Diagnostic) := do
  let problems ← p.catalog.reactors.toList.mapM p.reactorProblems?
  return problems.flatten

/-- Everything that is wrong with the instances below the root, in pre-order. -/
def assemblyProblems? : Lookup (List Diagnostic) :=
  match p.assembly.root? with
  | none => some []
  | some root => do
    let nodes ← p.assembly.preorder? root
    let problems ← nodes.mapM p.nodeProblems?
    return problems.flatten

/-- Everything that is wrong with a program. -/
def validate? : Lookup (List Diagnostic) := do
  let inCatalog ← p.catalogProblems?
  let inAssembly ← p.assemblyProblems?
  return inCatalog ++ inAssembly

end Reactors.Program
