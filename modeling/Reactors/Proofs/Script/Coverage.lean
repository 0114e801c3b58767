import Reactors.Proofs.Script.Parts
import Reactors.Proofs.Script.Variables

/-! # Nothing of a tree is left out

    The instances inside an instance are numbered behind it without a gap, and so are their places.
    The walk down from the node of an instance meets the nodes of these places, in order, and no
    others; that from the root meets them all.  So validation looks at every assignment of a model,
    a module constructs every instance once, and there are values for every instance.
-/

namespace Reactors

namespace Model

/-! ## Places inside an instance -/

/-- The places of the instance of a place and of those inside it. -/
def Place.below (x : Place) : List Place :=
  x.inst.places x.parent x.outer x.trail.dropLast x.id.index

/-- They are numbered from that of the instance on. -/
theorem Place.below_ids (x : Place) :
    x.below.map (·.id) = (List.range' x.id.index x.inst.size).map NodeId.mk :=
  places_ids _ _ _ _ _

mutual

theorem below_infix_places (parent : Option NodeId) (outer : Option String)
    (above : List String) (start : Nat) : (i : Instance) →
    ∀ x ∈ i.places parent outer above start, x.below <:+: i.places parent outer above start
  | ⟨name, reactor, assignments, children, span⟩ => by
    rw [Instance.places, List.forall_mem_cons]
    constructor
    · simp [Place.below, Instance.places]
    · intro x hx
      exact (below_infix_placesAll _ _ _ _ children x hx).trans (List.suffix_cons _ _).isInfix

/-- The places inside an instance stand together. -/
theorem below_infix_placesAll (parent : Option NodeId) (outer : Option String)
    (above : List String) (start : Nat) : (is : List Instance) →
    ∀ x ∈ placesAll parent outer above start is, x.below <:+: placesAll parent outer above start is
  | [] => by simp [placesAll]
  | i :: is => by
    rw [placesAll, List.forall_mem_append]
    constructor
    · intro x hx
      exact (below_infix_places _ _ _ _ i x hx).trans (List.prefix_append _ _).isInfix
    · intro x hx
      exact (below_infix_placesAll _ _ _ _ is x hx).trans (List.suffix_append _ _).isInfix

end

/-- The instance that contains all others has the first place, and all places are below it. -/
theorem exists_first_place (m : Model) : ∃ x ∈ m.places, x.id = ⟨0⟩ ∧ x.below = m.places := by
  obtain ⟨options, reactors, name, reactor, assignments, children, span⟩ := m
  refine ⟨_, List.mem_cons_self, rfl, ?_⟩
  rw [Place.below, List.dropLast_concat, places]

/-- Beside a part of a list stands a part of the other list. -/
theorem exists_forall₂_of_infix {α β : Type} {rel : α → β → Prop} {xs part : List α} {ys : List β}
    (h : List.Forall₂ rel xs ys) (hpart : part <:+: xs) :
    ∃ zs, zs <:+: ys ∧ List.Forall₂ rel part zs := by
  obtain ⟨before, after, rfl⟩ := hpart
  obtain ⟨us, rest, rfl, hus, _⟩ := Lookup.forall₂_append_left h
  obtain ⟨before', zs, rfl, _, hzs⟩ := Lookup.forall₂_append_left hus
  exact ⟨zs, ⟨before', rest, rfl⟩, hzs⟩

/-! ## Walks inside an instance -/

variable {a : Assembly}

/-- The walk down from the node of a place meets the nodes of the places inside it, if it may take
    that many steps. -/
theorem preorder?_below {x : Place} {ns : List Assembly.Node}
    (h : List.Forall₂ (Place.At a) x.below ns) (hle : ns.length ≤ a.nodes.size) :
    a.preorder? x.id = some ns := by
  have hlength : x.inst.size = ns.length := (length_places _ _ _ _ _).symm.trans h.length_eq
  obtain ⟨spare, hspare⟩ := Nat.exists_eq_add_of_le' (hlength ▸ hle)
  have hvisit := visit?_places _ _ _ x.id.index spare [] x.inst ns h
  rw [Assembly.preorder?, hspare, hvisit]
  cases spare <;> simp [Assembly.visit?]

end Model

namespace Script

/-- The instance that a statement constructs, with its variable and its class. -/
def Statement.call? : Statement → Option (NodeId × String × String)
  | .construct node path className _ => some (node, path, className)
  | .store _ _ _ => none

theorem filterMap_call_stores (i : NodeId) (path : String) (es : List Entry) :
    (es.map (.store i path)).filterMap Statement.call? = [] := by
  simp [List.filterMap_eq_nil_iff, Statement.call?]

/-- A statement that constructs an instance calls the class and binds the variable. -/
theorem Statement.text_of_call {s : Statement} {i : NodeId} {path className : String}
    (h : s.call? = some (i, path, className)) :
    ∃ keywords, s.text = path ++ " = " ++ className ++ "(" ++ keywords ++ ")" := by
  cases s with
  | construct node path className keywords =>
    cases h
    exact ⟨_, rfl⟩
  | store node path entry => cases h

/-- The statements of an instance construct it once, and no other. -/
theorem Overrides.call_construction (o : Overrides) (style : Options.Style) (className : String) :
    (o.construction style className).filterMap Statement.call? = [(o.node, o.path, className)] := by
  cases style with
  | targeted =>
    show (_, _, _) :: List.filterMap Statement.call? (List.map _ _) = _
    rw [filterMap_call_stores]
  | bulkMerge =>
    show (_, _, _) :: List.filterMap Statement.call? (List.map _ _) = _
    rw [filterMap_call_stores]

end Script

namespace Program

open Script
open Model (Faithful)

variable {m : Model} {p : Program}

/-! ## What is said of assignments -/

variable (p) in
/-- What is wrong with an assignment of an instance, which reads from the instance around. -/
def problemsOf (n : Assembly.Node) (x : Assignment) : List Diagnostic :=
  (p.assignmentProblems? n n.parent x).getD []

theorem assignmentProblems?_eq (hp : p.Closed) {n : Assembly.Node} (hn : n ∈ p.nodesOf)
    {x : Assignment} (hx : x ∈ n.assignments) :
    p.assignmentProblems? n n.parent x = some (p.problemsOf n x) := by
  obtain ⟨ds, hds, _⟩ := exists_assignmentProblems hp (hp.found hn) hx
  rw [problemsOf, hds]
  rfl

theorem nodeProblems?_eq (hp : p.Closed) {n : Assembly.Node} (hn : n ∈ p.nodesOf) :
    p.nodeProblems? n = some (n.assignments.flatMap (p.problemsOf n)) := by
  have hall := Lookup.mapM_eq_map fun x hx => assignmentProblems?_eq hp hn hx
  simp [nodeProblems?, Assembly.ancestor?_one (hp.found hn), hall, List.flatMap_def]

/-- Validation says what is wrong with the reactors, and then with every assignment of every
    instance below the root. -/
theorem validate?_eq (hp : p.Closed) {root : NodeId} (hroot : p.assembly.root? = some root) :
    ∃ cs, p.catalogProblems? = some cs ∧
      p.validate? =
        some (cs ++ p.nodesOf.flatMap fun n => n.assignments.flatMap (p.problemsOf n)) := by
  obtain ⟨cs, hcs, _⟩ := exists_catalogProblems hp
  have hall := Lookup.mapM_eq_map fun n hn => nodeProblems?_eq hp hn
  have hassembly : p.assemblyProblems? =
      some (p.nodesOf.flatMap fun n => n.assignments.flatMap (p.problemsOf n)) := by
    unfold assemblyProblems?
    simp [hroot, (hp.preorder hroot).1, hall, List.flatMap_def]
  exact ⟨cs, hcs, by simp [validate?, hcs, hassembly]⟩

/-- The assignments of some instances in order, each with its instance. -/
def assignmentsOf (ns : List Assembly.Node) : List (Assembly.Node × Assignment) :=
  ns.flatMap fun n => n.assignments.map fun x => (n, x)

/-- What is said of the assignments below the root, one block for each of them. -/
theorem assignmentProblems?_blocks (hp : p.Closed) :
    (assignmentsOf p.nodesOf).mapM (fun e => p.assignmentProblems? e.1 e.1.parent e.2) =
      some ((assignmentsOf p.nodesOf).map fun e => p.problemsOf e.1 e.2) := by
  apply Lookup.mapM_eq_map
  intro e he
  obtain ⟨n, hn, he⟩ := List.mem_flatMap.mp he
  obtain ⟨x, hx, rfl⟩ := List.mem_map.mp he
  exact assignmentProblems?_eq hp hn hx

theorem flatten_problemsOf (ns : List Assembly.Node) :
    ((assignmentsOf ns).map fun e => p.problemsOf e.1 e.2).flatten =
      ns.flatMap fun n => n.assignments.flatMap (p.problemsOf n) := by
  rw [← List.flatMap_def, assignmentsOf, List.flatMap_assoc]
  exact List.flatMap_congr fun n _ => List.flatMap_map _ _ _

/-! ## Accepted models -/

/-- A program whose walks, validation, construction and values leave out no instance of a model. -/
structure Covers (p : Program) (m : Model) : Prop where
  /-- The first node has no parent, and it is the only one. -/
  root : ∀ i, (∃ n, p.assembly.node? i = some n ∧ n.parent = none) ↔ i = ⟨0⟩
  /-- Every node is at a place of the model. -/
  place : ∀ i, p.assembly.HasNode i → ∃ x ∈ m.places, x.id = i
  /-- The walk from the node of an instance meets those of the instances inside it, in order, which
      are numbered without a gap. -/
  below : ∀ x ∈ m.places, ∃ ns, p.assembly.preorder? x.id = some ns ∧
    List.Forall₂ (Model.Place.Denotes p.catalog) x.below ns ∧
    ns.map (·.id) = (List.range' x.id.index x.inst.size).map NodeId.mk
  /-- The walk from the root meets every instance in the order of the model, and validation checks
      each of their assignments and says in order what is wrong with them. -/
  checked : ∃ ns cs blocks, p.assembly.preorder? ⟨0⟩ = some ns ∧
    List.Forall₂ (Model.Place.Denotes p.catalog) m.places ns ∧
    p.catalogProblems? = some cs ∧
    (assignmentsOf ns).mapM (fun e => p.assignmentProblems? e.1 e.1.parent e.2) = some blocks ∧
    p.validate? = some (cs ++ blocks.flatten)
  /-- A module constructs every instance once, in the order of the model, and is written out with
      the calls. -/
  constructed : ∀ header, ∃ module statements ds, (p.emit header).run = some (module, ds) ∧
    module.construction = some statements ∧ module.Written p.options ∧
    statements.filterMap Statement.call? =
      m.places.map (fun x => (x.id, variableOf x.trail, className x.inst.reactor)) ∧
    ∀ s ∈ statements, ∀ i path name, s.call? = some (i, path, name) →
      ∃ keywords, s.text = path ++ " = " ++ name ++ "(" ++ keywords ++ ")"
  /-- There are values for an instance and for each one inside it, in order. -/
  valued : ∀ x ∈ m.places, ∃ maps ds, (p.overridesBelow x.id).run = some (maps, ds) ∧
    maps.map (fun o => (o.node, o.path)) = x.below.map fun y => (y.id, variableOf y.trail)
  /-- So there are for every instance, from the root. -/
  all : ∃ maps ds, (p.overridesBelow ⟨0⟩).run = some (maps, ds) ∧
    maps.map (fun o => (o.node, o.path)) = m.places.map fun y => (y.id, variableOf y.trail)

section loaded
variable (hm : Faithful m p)
include hm

/-- The statements of all instances construct them in order. -/
theorem calls_statementsOf :
    (p.nodesOf.flatMap p.statementsOf).filterMap Statement.call? =
      m.places.map fun x => (x.id, variableOf x.trail, className x.inst.reactor) := by
  have hcalls : ∀ n ∈ p.nodesOf, (p.statementsOf n).filterMap Statement.call? =
      [(n.id, p.pathOf n.id, p.classOf n)] :=
    fun n _ => Overrides.call_construction _ _ _
  rw [List.filterMap_flatMap, List.flatMap_congr hcalls, ← List.map_eq_flatMap]
  symm
  apply Lookup.map_eq_of_forall₂ (forall₂_nodesOf hm)
  intro x n ⟨hx, _, hdenotes⟩
  obtain ⟨d, hd, hname⟩ := hdenotes.reactor
  have hclass : p.classOf n = className x.inst.reactor := by simp [classOf, className?, hd, hname]
  rw [hdenotes.id, pathOf_place hm hx, hclass]

variable (hload : Model.Loaded p)
include hload

/-- The nodes inside the instance of a place, which the walk from its node meets. -/
theorem exists_preorder_place {x : Model.Place} (hx : x ∈ m.places) :
    ∃ ns, ns ⊆ p.nodesOf ∧ p.assembly.preorder? x.id = some ns ∧
      List.Forall₂ (Model.Place.Denotes p.catalog) x.below ns := by
  have hbelow := Model.below_infix_places none none [] 0 m.main x hx
  obtain ⟨ns, hpart, hns⟩ := Model.exists_forall₂_of_infix hm.instances hbelow
  have hfound : ∀ n ∈ ns, p.assembly.node? n.id = some n := by
    intro n hn
    exact hload.assembly.node?_of_mem (hpart.mem hn)
  have hat : List.Forall₂ (Model.Place.At p.assembly) x.below ns := by
    apply (Lookup.forall₂_mem hns).imp
    intro y n ⟨_, hn, hy⟩
    exact ⟨hy.id ▸ hfound n hn, hy.name, hy.parent, hy.children⟩
  have hle : ns.length ≤ p.assembly.nodes.size := by simpa using hpart.length_le
  refine ⟨ns, ?_, Model.preorder?_below hat hle, hns⟩
  rw [nodesOf_eq hm]
  exact hpart.subset

/-- The values of an instance and of those inside it. -/
theorem exists_overridesBelow_place {x : Model.Place} (hx : x ∈ m.places) :
    ∃ maps ds, (p.overridesBelow x.id).run = some (maps, ds) ∧
      maps.map (fun o => (o.node, o.path)) = x.below.map fun y => (y.id, variableOf y.trail) := by
  have hp := closed_of_loaded hload
  obtain ⟨ns, hsub, hns, hall⟩ := exists_preorder_place hm hload hx
  refine ⟨_, _, overridesBelow_of_preorder hp hns fun n hn => hp.found (hsub hn), ?_⟩
  rw [List.map_map]
  symm
  apply Lookup.map_eq_of_forall₂ (Lookup.forall₂_mem hall)
  intro y n ⟨hy, _, hdenotes⟩
  have hmem := (Model.below_infix_places none none [] 0 m.main x hx).mem hy
  rw [Function.comp_apply, overridesOf, hdenotes.id, pathOf_place hm hmem]

end loaded

/-- Nothing of an accepted model is left out: its root is the first node, the walk from a node
    meets the instances inside it and no others, all assignments are validated, and every instance
    is constructed and has its values. -/
theorem elaborate_covers (h : m.elaborate = some (.ok p)) : p.Covers m := by
  have hm := Model.faithful_of_quiet (Model.bindAll_quiet h)
  have hload := (Model.loaded_of_elaborate h).1
  have hp := closed_of_loaded hload
  have hrooted := hload.assembly.toRooted
  obtain ⟨first, hfirst, hzero, hbelow⟩ := Model.exists_first_place m
  obtain ⟨cs, hcs, hvalidate⟩ := validate?_eq hp hm.root
  rw [← flatten_problemsOf] at hvalidate
  have hnodes := nodesOf_eq hm
  refine ⟨?_, ?_, ?_, ⟨p.nodesOf, cs, _, ?_, ?_, hcs, assignmentProblems?_blocks hp, hvalidate⟩,
    ?_, ?_, ?_⟩
  · intro i
    constructor
    · intro ⟨n, hn, hnone⟩
      exact hrooted.alone hn hnone
    · rintro rfl
      obtain ⟨n, hn, hnone⟩ := Assembly.root?_eq_some hrooted.toLinked hm.root
      exact ⟨n, hn, hnone⟩
  · intro i hi
    obtain ⟨n, hn⟩ := Assembly.hasNode_iff.mp hi
    have hmem : n ∈ p.assembly.nodes.toList := Array.mem_toList_iff.mpr (Array.mem_of_getElem? hn)
    obtain ⟨x, hx, hdenotes⟩ := Lookup.exists_mem_of_forall₂ hm.instances.flip hmem
    exact ⟨x, hx, hdenotes.id.symm.trans (hrooted.id hn)⟩
  · intro x hx
    obtain ⟨ns, _, hns, hall⟩ := exists_preorder_place hm hload hx
    refine ⟨ns, hns, hall, ?_⟩
    rw [← x.below_ids]
    exact (Lookup.map_eq_of_forall₂ hall fun y n hy => hy.id.symm).symm
  · exact hnodes ▸ hm.order
  · exact hnodes ▸ hm.instances
  · intro header
    exact ⟨_, _, _, emit_run hp header, by rw [moduleOf, hm.root]; rfl, Module.written _ _,
      calls_statementsOf hm, fun s _ i path name => Statement.text_of_call⟩
  · exact fun x hx => exists_overridesBelow_place hm hload hx
  · rw [← hbelow, ← hzero]
    exact exists_overridesBelow_place hm hload hfirst

open Model (nesting nestingProgram)

theorem covers_nesting :
    nesting.elaborate = some (.ok nestingProgram) ∧ nestingProgram.Covers nesting :=
  ⟨Model.elaborate_nesting, elaborate_covers Model.elaborate_nesting⟩

end Program

end Reactors
