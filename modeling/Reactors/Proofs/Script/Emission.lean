import Reactors.Listing
import Reactors.Proofs.Script.Values
import Reactors.Script.Module

/-! # What emission gives

    Emission of a closed program ends.  It reports the visible parameters with empty defaults, once
    for each class that has them, and the slots without an entry.  Where it reports nothing, the
    module has the class of every reactor and the statements of every instance below the root.
-/

namespace Reactors.Program

open Script
open Collect (Ends)

variable (p : Program)

/-! ## Classes -/

/-- The parameters visible on a reactor that is there. -/
def visibleOf (r : ReactorId) : List Catalog.Parameter := (p.catalog.visible? r).getD []

/-- The line that sets the field of a parameter. -/
def fieldOf (q : Catalog.Parameter) : Line :=
  .assign q.id q.name (typeName? q.typeText) (q.default.map p.classExpr)
    (p.tupleText (q.default.map p.classExpr))

/-- The class of a reactor. -/
def blockOf (d : Catalog.Reactor) : ClassBlock :=
  { reactor := d.id
    name := className d.name
    skeleton := .comment "Define parameters and their default values" ::
      (p.visibleOf d.id).map p.fieldOf ++ mergeLines p.options.style
    properties := firstOccurrences [] ((p.visibleOf d.id).map (·.name)) }

/-- What is reported about a parameter with an empty default. -/
def hollowReport (q : Catalog.Parameter) : Diagnostic :=
  (ParameterFault.emptyInitializer q.name .default q.span).toDiagnostic

variable {p}

theorem Closed.visible? (hp : p.Closed) {r : ReactorId} (hr : p.catalog.HasReactor r) :
    p.catalog.visible? r = some (p.visibleOf r) := by
  obtain ⟨qs, hqs⟩ := hp.catalog.exists_visible hr
  simp [visibleOf, hqs]

/-- A visible parameter is found by its identity. -/
theorem Closed.parameter?_of_visibleOf (hp : p.Closed) {r : ReactorId}
    (hr : p.catalog.HasReactor r) {q : Catalog.Parameter} (hq : q ∈ p.visibleOf r) :
    p.catalog.parameter? q.id = some q :=
  hp.catalog.parameter?_of_visible (hp.visible? hr) hq

theorem fieldLine_gives (hp : p.Closed) {q : Catalog.Parameter}
    (hq : p.catalog.parameter? q.id = some q) :
    Gives (p.fieldLine q)
      (if q.default = [] then .error (.emptyInitializer q.name .default q.span)
       else .ok (p.fieldOf q)) := by
  have hterms : Gives (q.default.mapM fun v => (express? p .inClass v : Lookup Expr))
      (.ok (q.default.map p.classExpr)) :=
    Gives.mapM fun v hv => Gives.lift (express?_inClass (hp.catalog.default hq v hv))
  unfold fieldLine
  apply hterms.bind
  by_cases hnil : q.default = []
  · rw [if_pos hnil, hnil]
    exact .throw _
  · rw [if_neg hnil, tuple?_eq_some (by simpa using hnil)]
    exact .pure _

variable (p)

/-- The first visible parameter of a reactor whose default is empty. -/
def hollow? (r : ReactorId) : Option Catalog.Parameter :=
  (p.visibleOf r).find? fun q => q.default = []

/-- The class of a reactor, unless a visible parameter has an empty default. -/
def writtenClass (d : Catalog.Reactor) : Option ClassBlock :=
  match p.hollow? d.id with
  | some _ => none
  | none => some (p.blockOf d)

/-- What is reported about the class of a reactor. -/
def classReports (d : Catalog.Reactor) : List Diagnostic :=
  (p.hollow? d.id).toList.map hollowReport

variable {p}

/-- The constructor of a class without an empty default. -/
theorem skeleton_gives (hp : p.Closed) {d : Catalog.Reactor}
    (hd : p.catalog.reactor? d.id = some d) (hnone : p.hollow? d.id = none) :
    Gives (p.skeleton d.id) (.ok (p.blockOf d).skeleton) := by
  have hr := Catalog.hasReactor_of_some hd
  have hfields := Gives.mapM_find fun q hq =>
    fieldLine_gives hp (hp.parameter?_of_visibleOf hr hq)
  unfold hollow? at hnone
  rw [hnone] at hfields
  exact (Gives.lift (hp.visible? hr)).bind (hfields.bind (.pure _))

/-- The first empty default ends the constructor. -/
theorem skeleton_fails (hp : p.Closed) {d : Catalog.Reactor}
    (hd : p.catalog.reactor? d.id = some d) {q : Catalog.Parameter} (h : p.hollow? d.id = some q) :
    Gives (p.skeleton d.id) (.error (.emptyInitializer q.name .default q.span)) := by
  have hr := Catalog.hasReactor_of_some hd
  have hfields := Gives.mapM_find fun q hq =>
    fieldLine_gives hp (hp.parameter?_of_visibleOf hr hq)
  unfold hollow? at h
  rw [h] at hfields
  exact (Gives.lift (hp.visible? hr)).bind hfields.bind_error

theorem emitClass_run (hp : p.Closed) {d : Catalog.Reactor}
    (hd : p.catalog.reactor? d.id = some d) :
    (p.emitClass d.id).run = some (p.writtenClass d, p.classReports d) := by
  have hr := Catalog.hasReactor_of_some hd
  have hqs := hp.visible? hr
  unfold emitClass writtenClass classReports
  cases hhollow : p.hollow? d.id with
  | some q =>
    -- with the constructor the class ends
    have hblock : Gives (p.classBlock d.id) (.error (.emptyInitializer q.name .default q.span)) :=
      (skeleton_fails hp hd hhollow).bind_error
    rw [Collect.lookup_bind hblock]
    rfl
  | none =>
    have hskeleton := skeleton_gives hp hd hhollow
    have hproperties : p.properties? d.id = some (p.blockOf d).properties := by
      simp [properties?, hqs, blockOf]
    have hname : p.className? d.id = some (p.blockOf d).name := by
      simp [className?, hd, blockOf]
    have hblock : Gives (p.classBlock d.id) (.ok (p.blockOf d)) :=
      hskeleton.bind ((Gives.lift hproperties).bind ((Gives.lift hname).bind (.pure _)))
    rw [Collect.lookup_bind hblock]
    rfl

/-! ## Instances -/

variable (p)

/-- The values of an instance. -/
def overridesOf (n : Assembly.Node) : Overrides :=
  { node := n.id
    path := p.pathOf n.id
    entries := (p.visibleOf n.reactor).filterMap (p.slotEntry? n) }

/-- The class of an instance. -/
def classOf (n : Assembly.Node) : String := (p.className? n.reactor).getD ""

/-- The statements that construct an instance. -/
def statementsOf (n : Assembly.Node) : List Statement :=
  (p.overridesOf n).construction p.options.style (p.classOf n)

/-- The instances below the root, in pre-order. -/
def nodesOf : List Assembly.Node :=
  match p.assembly.root? with
  | some root => (p.assembly.preorder? root).getD []
  | none => []

variable {p}

/-- The walk from the root meets the instances below it. -/
theorem Closed.preorder (hp : p.Closed) {root : NodeId} (h : p.assembly.root? = some root) :
    p.assembly.preorder? root = some p.nodesOf ∧ p.assembly.Preorder root p.nodesOf := by
  obtain ⟨n, hn, hnone⟩ := Assembly.root?_eq_some hp.assembly h
  obtain ⟨ns, hns, hpre⟩ := hp.assembly.exists_preorder hn hnone
  have heq : p.nodesOf = ns := by simp [nodesOf, h, hns]
  rw [heq]
  exact ⟨hns, hpre⟩

theorem Closed.found (hp : p.Closed) {n : Assembly.Node} (hn : n ∈ p.nodesOf) :
    p.assembly.node? n.id = some n := by
  cases h : p.assembly.root? with
  | none => simp [nodesOf, h] at hn
  | some root => exact (hp.preorder h).2.found n hn

theorem className?_eq {n : Assembly.Node} (hr : p.catalog.HasReactor n.reactor) :
    p.className? n.reactor = some (p.classOf n) := by
  obtain ⟨d, hd⟩ := Catalog.hasReactor_iff.mp hr
  simp [classOf, className?, hd]

theorem construction?_eq (hp : p.Closed) {n : Assembly.Node}
    (hn : p.assembly.node? n.id = some n) :
    p.construction? (p.overridesOf n) = some (p.statementsOf n) := by
  simp [construction?, statementsOf, overridesOf, hn, className?_eq (hp.reactor hn)]

/-! ## Modules -/

variable (p)

/-- The module of a program, as far as it can be written. -/
def moduleOf (header : List String) : Module :=
  { header
    classes := p.catalog.reactors.toList.filterMap p.writtenClass
    construction := p.assembly.root?.map fun _ => p.nodesOf.flatMap p.statementsOf }

/-- What is reported about the slots below the root. -/
def slotsReports : List Diagnostic :=
  p.nodesOf.flatMap fun n => (p.visibleOf n.reactor).flatMap (slotReports n)

variable {p}

/-- The values of instances that are found, and the reports about the slots without an entry. -/
theorem overridesBelow_of_preorder (hp : p.Closed) {i : NodeId} {ns : List Assembly.Node}
    (h : p.assembly.preorder? i = some ns) (hfound : ∀ n ∈ ns, p.assembly.node? n.id = some n) :
    (p.overridesBelow i).run = some (ns.map p.overridesOf,
      ns.flatMap fun n => (p.visibleOf n.reactor).flatMap (slotReports n)) := by
  unfold overridesBelow
  rw [Collect.lookup_bind h]
  have hall : List.Forall₂ (fun n r => (p.overridesAt n).run = some r) ns
      (ns.map fun n =>
        (p.overridesOf n, (p.visibleOf n.reactor).flatMap (slotReports n))) := by
    rw [List.forall₂_map_right_iff, List.forall₂_same]
    intro n hn
    exact overridesAt_run hp (hfound n hn) (hp.visible? (hp.reactor (hfound n hn)))
  rw [Collect.run_mapM hall]
  simp only [List.map_map, List.flatMap_def]
  rfl

/-- The values below the root. -/
theorem overridesBelow_run (hp : p.Closed) {root : NodeId} (h : p.assembly.root? = some root) :
    (p.overridesBelow root).run = some (p.nodesOf.map p.overridesOf, p.slotsReports) :=
  overridesBelow_of_preorder hp (hp.preorder h).1 fun _ hn => hp.found hn

theorem constructions_eq (hp : p.Closed) :
    (p.nodesOf.map p.overridesOf).mapM p.construction? = some (p.nodesOf.map p.statementsOf) := by
  rw [List.mapM_map]
  exact Lookup.mapM_eq_map fun n hn => construction?_eq hp (hp.found hn)

theorem emitConstruction_run (hp : p.Closed) :
    p.emitConstruction.run =
      some (p.assembly.root?.map fun _ => p.nodesOf.flatMap p.statementsOf, p.slotsReports) := by
  unfold emitConstruction
  cases h : p.assembly.root? with
  | none => simp [slotsReports, nodesOf, h]
  | some root =>
    rw [Collect.run_bind, overridesBelow_run hp h, Option.bind_some,
      Collect.lookup_bind (constructions_eq hp)]
    simp [List.flatMap_def]

theorem found_reactor (hp : p.Closed) {d : Catalog.Reactor} (hd : d ∈ p.catalog.reactors.toList) :
    p.catalog.reactor? d.id = some d :=
  hp.catalog.reactor?_of_mem hd

/-- Emission of a closed program: the module, as far as it can be written, and what is reported
    about the classes and the slots that cannot. -/
theorem emit_run (hp : p.Closed) (header : List String) :
    (p.emit header).run = some (p.moduleOf header,
      p.catalog.reactors.toList.flatMap p.classReports ++ p.slotsReports) := by
  have hclasses : List.Forall₂ (fun r x => (p.emitClass r).run = some x)
      (p.catalog.reactors.toList.map (·.id))
      (p.catalog.reactors.toList.map fun d => (p.writtenClass d, p.classReports d)) := by
    rw [List.forall₂_map_left_iff, List.forall₂_map_right_iff, List.forall₂_same]
    exact fun d hd => emitClass_run hp (found_reactor hp hd)
  unfold emit
  rw [Collect.run_bind, Collect.run_mapM hclasses, Option.bind_some, Collect.run_bind,
    emitConstruction_run hp]
  simp only [Option.bind_some, Collect.run_pure, Option.map_some, List.append_nil, List.map_map,
    List.filterMap_map, List.flatMap_def]
  rfl

end Reactors.Program
