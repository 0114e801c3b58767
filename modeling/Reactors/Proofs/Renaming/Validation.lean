import Reactors.Proofs.Renaming.Basic
import Reactors.Proofs.Validation

/-! # Validation under new identities

    A report names what it is about and says where it is declared, and holds no identity.  So under
    new identities the same is reported about each reactor and about each instance; only the order
    of the reactors may be another one.
-/

namespace Reactors.Program.Renames

open Catalog (Parameter)

variable {ρ : Renaming} {p p' : Program} (h : Renames ρ p p')
include h

/-! ## Declarations -/

theorem reactorProblems? (d : Catalog.Reactor) :
    p'.reactorProblems? (d.rename ρ) = p.reactorProblems? d := by
  have hown : (d.rename ρ).params.mapM p'.catalog.parameter? =
      (d.params.mapM p.catalog.parameter?).map (List.map (Parameter.rename ρ)) :=
    Lookup.mapM_map fun q _ => h.catalog.parameter q
  unfold Program.reactorProblems?
  rw [Catalog.Reactor.id_rename, h.catalog.repetitions?, hown]
  cases p.catalog.repetitions? d.id with
  | none => rfl
  | some repeated =>
    cases d.params.mapM p.catalog.parameter? with
    | none => rfl
    | some own =>
      -- the reports read names and places only
      have hrepeated : (repeated.map (Prod.map (Parameter.rename ρ) (Parameter.rename ρ))).map
          (ambiguity (d.rename ρ)) = repeated.map (ambiguity d) := by
        rw [List.map_map]
        rfl
      have hhollow : (own.map (Parameter.rename ρ)).filter (fun q => q.default.isEmpty) =
          (own.filter fun q => q.default.isEmpty).map (Parameter.rename ρ) := by
        rw [List.filter_map]
        simp [Function.comp_def]
      simp only [Option.map_some, Option.bind_eq_bind, Option.bind_some, hrepeated, hhollow,
        List.map_map]
      rfl

/-- The same is wrong with the reactors, in another order. -/
theorem catalogProblems? {ds : List Diagnostic} (hds : p.catalogProblems? = some ds) :
    ∃ ds', p'.catalogProblems? = some ds' ∧ ds.Perm ds' := by
  obtain ⟨problems, hproblems, hflat⟩ := Option.bind_eq_some_iff.mp hds
  have hrenamed : (p.catalog.reactors.toList.map (Catalog.Reactor.rename ρ)).mapM
      p'.reactorProblems? = some problems := by
    rw [← hproblems]
    exact Lookup.mapM_map_eq fun d _ => h.reactorProblems? d
  obtain ⟨problems', hproblems', hperm⟩ := Lookup.mapM_perm h.catalog.reactors.symm hrenamed
  refine ⟨problems'.flatten, by simp [Program.catalogProblems?, hproblems'], ?_⟩
  rw [← Option.some.inj hflat]
  exact hperm.flatten

/-! ## Assignments -/

theorem foreignForward? (n : Assembly.Node) (span : Span) (outer : ReactorId) (q : ParamId) :
    p'.foreignForward? (n.rename ρ) span (ρ.reactor outer) (ρ.param q) =
      p.foreignForward? n span outer q := by
  unfold Program.foreignForward?
  rw [h.catalog.parameter]
  cases p.catalog.parameter? q with
  | none => rfl
  | some x =>
    simp only [Option.map_some, Option.bind_eq_bind, Option.bind_some, Parameter.owner_rename,
      h.catalog.reactor]
    cases p.catalog.reactor? x.owner with
    | none => rfl
    | some owner => cases p.catalog.reactor? outer <;> rfl

theorem foreignForwards? (n : Assembly.Node) (span : Span) (outer : ReactorId)
    (ids : List ParamId) :
    p'.foreignForwards? (n.rename ρ) span (ρ.reactor outer) (ids.map ρ.param) =
      p.foreignForwards? n span outer ids := by
  induction ids with
  | nil => rfl
  | cons q ids ih =>
    rw [List.map_cons, Program.foreignForwards?, Program.foreignForwards?, ih,
      h.catalog.visibleIds?, h.foreignForward?]
    cases p.catalog.visibleIds? outer with
    | none => rfl
    | some visible =>
      simp only [Option.map_some, Option.bind_eq_bind, Option.bind_some,
        List.mem_map_of_injective ρ.param_injective]

theorem assignmentProblems? (n : Assembly.Node) (scope : Option NodeId) (x : Assignment) :
    p'.assignmentProblems? (n.rename ρ) scope (x.rename ρ) =
      p.assignmentProblems? n scope x := by
  have hempty : (x.rename ρ).values.isEmpty = x.values.isEmpty := by simp
  have hids : (x.rename ρ).values.filterMap Value.reference? =
      (x.values.filterMap Value.reference?).map ρ.param := by
    simp [List.filterMap_map, List.map_filterMap]
  unfold Program.assignmentProblems?
  rw [Assignment.target_rename, h.catalog.parameter, hempty, hids]
  cases p.catalog.parameter? x.target with
  | none => rfl
  | some target =>
    simp only [Option.map_some, Option.bind_eq_bind, Option.bind_some, Parameter.name_rename,
      Assembly.Node.name_rename, Assignment.span_rename]
    cases x.values.isEmpty with
    | true => rfl
    | false =>
      cases scope with
      | none => cases x.values.filterMap Value.reference? <;> rfl
      | some outer =>
        simp only [h.assembly, Assembly.node?_rename, List.isEmpty_map]
        cases p.assembly.node? outer with
        | none => rfl
        | some m =>
          have hforwards := h.foreignForwards? n x.span m.reactor
            (x.values.filterMap Value.reference?)
          simpa using
            congrArg (fun r => if (x.values.filterMap Value.reference?).isEmpty then some [] else r)
              hforwards

theorem nodeProblems? (n : Assembly.Node) :
    p'.nodeProblems? (n.rename ρ) = p.nodeProblems? n := by
  have hassignments : ∀ scope, (n.rename ρ).assignments.mapM
      (p'.assignmentProblems? (n.rename ρ) scope) =
        n.assignments.mapM (p.assignmentProblems? n scope) :=
    fun scope => Lookup.mapM_map_eq fun x _ => h.assignmentProblems? n scope x
  unfold Program.nodeProblems?
  rw [Assembly.Node.id_rename, h.assembly, Assembly.ancestor?_rename]
  simp only [hassignments]

/-- The same is wrong with the instances, in order. -/
theorem assemblyProblems? : p'.assemblyProblems? = p.assemblyProblems? := by
  unfold Program.assemblyProblems?
  rw [h.assembly, Assembly.root?_rename]
  cases p.assembly.root? with
  | none => rfl
  | some root =>
    simp only [Assembly.preorder?_rename]
    cases p.assembly.preorder? root with
    | none => simp only [Option.map_none, Option.bind_eq_bind, Option.bind_none]
    | some ns =>
      have hnodes : (ns.map (Assembly.Node.rename ρ)).mapM p'.nodeProblems? =
          ns.mapM p.nodeProblems? :=
        Lookup.mapM_map_eq fun n _ => h.nodeProblems? n
      simp only [Option.map_some, Option.bind_eq_bind, Option.bind_some, hnodes]

/-! ## The whole program -/

/-- Validation reports the same, in another order. -/
theorem validate? {vs : List Diagnostic} (hvs : p.validate? = some vs) :
    ∃ vs', p'.validate? = some vs' ∧ vs.Perm vs' := by
  obtain ⟨ds, hds, hrest⟩ := Option.bind_eq_some_iff.mp hvs
  obtain ⟨es, hes, hall⟩ := Option.bind_eq_some_iff.mp hrest
  obtain ⟨ds', hds', hperm⟩ := h.catalogProblems? hds
  refine ⟨ds' ++ es, by simp [Program.validate?, hds', h.assemblyProblems?, hes], ?_⟩
  rw [← Option.some.inj hall]
  exact hperm.append_right es

end Reactors.Program.Renames
