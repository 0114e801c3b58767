import Reactors.Proofs.Renaming.Basic
import Reactors.Proofs.Script.Duplicates

/-! # Emission under new identities

    The code that is generated names parameters and instances, and holds no identity in its text.
    So a program under new identities has the same values, the same statements and the same classes
    but for the identities they carry, and all of these have the same text.
-/

namespace Reactors

open Catalog (Parameter)

namespace Script

variable (ρ : Renaming)

/-! ## Code under new identities -/

/-- An entry under a new identity. -/
def Entry.rename (e : Entry) : Entry := { e with param := ρ.param e.param }

/-- The values of an instance under new identities. -/
def Overrides.rename (o : Overrides) : Overrides :=
  { o with entries := o.entries.map (Entry.rename ρ) }

/-- A statement under new identities. -/
def Statement.rename : Statement → Statement
  | construct i path className keywords =>
    construct i path className (keywords.map (Entry.rename ρ))
  | store i path e => store i path (e.rename ρ)

/-- A line of a constructor under new identities. -/
def Line.rename : Line → Line
  | assign q name typeName terms value => assign (ρ.param q) name typeName terms value
  | l => l

/-- A class under new identities. -/
def ClassBlock.rename (b : ClassBlock) : ClassBlock :=
  { b with reactor := ρ.reactor b.reactor, skeleton := b.skeleton.map (Line.rename ρ) }

theorem Statement.text_rename (s : Statement) : (s.rename ρ).text = s.text := by
  cases s with
  | construct i path className keywords =>
    have hkeywords : (keywords.map (Entry.rename ρ)).map keywordText =
        keywords.map keywordText := by
      rw [List.map_map]
      rfl
    rw [rename, text, hkeywords, text]
  | store i path e => rfl

theorem constructionText_rename (ss : List Statement) :
    constructionText (ss.map (Statement.rename ρ)) = constructionText ss := by
  have htexts : (ss.map (Statement.rename ρ)).map Statement.text = ss.map Statement.text := by
    rw [List.map_map]
    exact List.map_congr_left fun s _ => Statement.text_rename ρ s
  rw [constructionText, htexts, constructionText]

theorem Line.text_rename (l : Line) : (l.rename ρ).text = l.text := by
  cases l with
  | assign q name typeName terms value => cases typeName <;> rfl
  | _ => rfl

theorem ClassBlock.text_rename (o : Options) (b : ClassBlock) :
    (b.rename ρ).text o = b.text o := by
  have hlines : (b.skeleton.map (Line.rename ρ)).map Line.text = b.skeleton.map Line.text := by
    rw [List.map_map]
    exact List.map_congr_left fun l _ => Line.text_rename ρ l
  have hskeleton : skeletonText (b.rename ρ).skeleton = skeletonText b.skeleton :=
    congrArg ("\n".intercalate ·) hlines
  unfold text
  rw [hskeleton]
  rfl

theorem lastOfEachName_rename (es : List Entry) :
    lastOfEachName (es.map (Entry.rename ρ)) = (lastOfEachName es).map (Entry.rename ρ) := by
  induction es with
  | nil => rfl
  | cons e es ih =>
    have hany : (es.map (Entry.rename ρ)).any (fun f => f.name == (e.rename ρ).name) =
        es.any fun f => f.name == e.name := by
      rw [List.any_map]
      rfl
    rw [List.map_cons, lastOfEachName, lastOfEachName, hany, ih]
    cases es.any fun f => f.name == e.name <;> rfl

theorem Overrides.distinct_rename (o : Overrides) :
    (o.rename ρ).distinct = o.distinct.map (Entry.rename ρ) := by
  rw [distinct_eq, distinct_eq]
  exact lastOfEachName_rename ρ o.entries

theorem Overrides.construction_rename (o : Overrides) (style : Options.Style)
    (className : String) :
    (o.rename ρ).construction style className =
      (o.construction style className).map (Statement.rename ρ) := by
  have hfilter : ∀ (cond : Entry → Bool) (es : List Entry), (∀ e, cond (e.rename ρ) = cond e) →
      (es.map (Entry.rename ρ)).filter cond = (es.filter cond).map (Entry.rename ρ) := by
    intro cond es hcond
    rw [List.filter_map, show cond ∘ Entry.rename ρ = cond from funext hcond]
  cases style with
  | targeted =>
    rw [construction_targeted, construction_targeted, overriding, overriding, deferred, deferred,
      rename, hfilter _ _ fun _ => rfl, hfilter _ _ fun _ => rfl]
    simp [Statement.rename, Function.comp_def]
  | bulkMerge =>
    rw [construction_merged, construction_merged, distinct_rename, immediate, immediate, deferred,
      deferred, hfilter _ _ fun _ => rfl, hfilter _ _ fun _ => rfl]
    simp [Statement.rename, Function.comp_def, rename]

end Script

namespace Program

open Script

/-! ## Faults and tables -/

section faults
variable (ρ : Renaming)

theorem lastSetting?_rename (q : ParamId) (xs : List Assignment) :
    Assembly.lastSetting? (ρ.param q) (xs.map (Assignment.rename ρ)) =
      (Assembly.lastSetting? q xs).map (Assignment.rename ρ) := by
  have hcond : (fun x : Assignment => decide ((x.rename ρ).target = ρ.param q)) =
      fun x => decide (x.target = q) := by
    funext x
    exact decide_eq_decide.mpr ρ.param_injective.eq_iff
  unfold Assembly.lastSetting?
  rw [← List.map_reverse, List.find?_map]
  exact congrArg (fun cond => Option.map _ (List.find? cond xs.reverse)) hcond

theorem settingFault?_rename (n : Assembly.Node) (q : Parameter) (x : Assignment) :
    settingFault? (n.rename ρ) (q.rename ρ) (x.rename ρ) = settingFault? n q x := by
  simp [settingFault?, Assembly.Node.rename, Assignment.rename, Parameter.rename]

theorem slotFault?_rename (n : Assembly.Node) (q : Parameter) :
    slotFault? (n.rename ρ) (q.rename ρ) = slotFault? n q := by
  have hsetting : Assembly.lastSetting? (q.rename ρ).id (n.rename ρ).assignments =
      (Assembly.lastSetting? q.id n.assignments).map (Assignment.rename ρ) :=
    lastSetting?_rename ρ q.id n.assignments
  unfold slotFault?
  rw [hsetting]
  cases Assembly.lastSetting? q.id n.assignments with
  | some x => exact settingFault?_rename ρ n q x
  | none => simp [Parameter.rename]

theorem slotReports_rename (n : Assembly.Node) (q : Parameter) :
    slotReports (n.rename ρ) (q.rename ρ) = slotReports n q := by
  unfold slotReports
  rw [slotFault?_rename]

/-- The values are listed in the same way. -/
theorem overridesTable_rename (o : Overrides) :
    overridesTable (o.rename ρ) = overridesTable o := by
  unfold overridesTable
  rw [Overrides.distinct_rename, List.map_map]
  rfl

end faults

namespace Renames

variable {ρ : Renaming} {p p' : Program} (h : Renames ρ p p')
include h

/-! ## Values -/

theorem pathOf (i : NodeId) : p'.pathOf i = p.pathOf i := by
  simp [Program.pathOf, Assembly.path?, h.assembly]

theorem nameOf (q : ParamId) : p'.nameOf (ρ.param q) = p.nameOf q := by
  unfold Program.nameOf
  rw [h.catalog.name]

theorem classExpr (v : Value) : p'.classExpr (v.rename ρ) = p.classExpr v := by
  cases v with
  | constant k => rfl
  | param q => exact congrArg Expr.field (h.nameOf q)

theorem ownExpr (i : NodeId) (v : Value) : p'.ownExpr i (v.rename ρ) = p.ownExpr i v := by
  cases v with
  | constant k => rfl
  | param q => simp [Program.ownExpr, Value.rename, h.nameOf, h.pathOf]

theorem outerExpr (i : NodeId) (v : Value) : p'.outerExpr i (v.rename ρ) = p.outerExpr i v := by
  cases v with
  | constant k => rfl
  | param q => simp [Program.outerExpr, Value.rename, h.nameOf, h.pathOf]

theorem tupleText (ts : List Expr) : p'.tupleText ts = p.tupleText ts := by
  unfold Program.tupleText
  rw [h.options]

theorem visibleOf (r : ReactorId) :
    p'.visibleOf (ρ.reactor r) = (p.visibleOf r).map (Parameter.rename ρ) := by
  unfold Program.visibleOf
  rw [h.catalog.visible?]
  cases p.catalog.visible? r <;> rfl

theorem nodesOf : p'.nodesOf = p.nodesOf.map (Assembly.Node.rename ρ) := by
  unfold Program.nodesOf
  rw [h.assembly, Assembly.root?_rename]
  cases p.assembly.root? with
  | none => rfl
  | some root =>
    simp only [Assembly.preorder?_rename]
    cases p.assembly.preorder? root <;> rfl

/-! ## Entries -/

theorem resolutionAt (n : Assembly.Node) (q : Parameter) :
    p'.resolutionAt (n.rename ρ) (q.rename ρ) = p.resolutionAt n q := by
  unfold Program.resolutionAt
  rw [Parameter.id_rename, Assembly.Node.assignments_rename, lastSetting?_rename]
  cases Assembly.lastSetting? q.id n.assignments with
  | some x =>
    simp [Function.comp_def, h.outerExpr, Assembly.Node.rename]
  | none =>
    simp [Function.comp_def, h.ownExpr, Assembly.Node.rename, Parameter.rename]

theorem slotEntry? (n : Assembly.Node) (q : Parameter) :
    p'.slotEntry? (n.rename ρ) (q.rename ρ) = (p.slotEntry? n q).map (Entry.rename ρ) := by
  unfold Program.slotEntry?
  rw [slotFault?_rename]
  cases slotFault? n q with
  | some f => rfl
  | none =>
    simp only [Program.entryAt, h.resolutionAt, h.tupleText, Option.map_some]
    rfl

theorem overridesOf (n : Assembly.Node) :
    p'.overridesOf (n.rename ρ) = (p.overridesOf n).rename ρ := by
  simp [Program.overridesOf, Overrides.rename, h.pathOf, h.visibleOf, List.filterMap_map,
    List.map_filterMap, h.slotEntry?]

theorem slotsReports : p'.slotsReports = p.slotsReports := by
  unfold Program.slotsReports
  rw [h.nodesOf, List.flatMap_map]
  apply List.flatMap_congr
  intro n _
  rw [Assembly.Node.reactor_rename, h.visibleOf, List.flatMap_map]
  exact List.flatMap_congr fun q _ => slotReports_rename ρ n q

theorem maps : p'.nodesOf.map p'.overridesOf =
    (p.nodesOf.map p.overridesOf).map (Overrides.rename ρ) := by
  rw [h.nodesOf, List.map_map, List.map_map]
  exact List.map_congr_left fun n _ => h.overridesOf n

/-! ## Statements -/

theorem className? (r : ReactorId) : p'.className? (ρ.reactor r) = p.className? r := by
  unfold Program.className?
  rw [h.catalog.reactor]
  cases p.catalog.reactor? r <;> rfl

theorem construction? (o : Overrides) :
    p'.construction? (o.rename ρ) = (p.construction? o).map (List.map (Statement.rename ρ)) := by
  have hnode : (o.rename ρ).node = o.node := rfl
  unfold Program.construction?
  rw [hnode, h.assembly, Assembly.node?_rename, h.options]
  cases p.assembly.node? o.node with
  | none => rfl
  | some n =>
    simp only [Option.map_some, Option.bind_eq_bind, Option.bind_some,
      Assembly.Node.reactor_rename, h.className?]
    cases p.className? n.reactor with
    | none => rfl
    | some name => simp [Overrides.construction_rename]

/-- An instance is constructed by the same text. -/
theorem construction?_text (o : Overrides) :
    (p'.construction? (o.rename ρ)).map constructionText =
      (p.construction? o).map constructionText := by
  rw [h.construction?, Option.map_map]
  exact congrArg (Option.map · (p.construction? o)) (funext (constructionText_rename ρ))

/-! ## Classes -/

theorem fieldOf (q : Parameter) : p'.fieldOf (q.rename ρ) = (p.fieldOf q).rename ρ := by
  simp [Program.fieldOf, Parameter.rename, Line.rename, Function.comp_def, h.classExpr,
    h.tupleText]

theorem blockOf (d : Catalog.Reactor) : p'.blockOf (d.rename ρ) = (p.blockOf d).rename ρ := by
  have hmerge : (mergeLines p.options.style).map (Line.rename ρ) = mergeLines p.options.style := by
    cases p.options.style <;> rfl
  have hfields : (p'.visibleOf (ρ.reactor d.id)).map p'.fieldOf =
      ((p.visibleOf d.id).map p.fieldOf).map (Line.rename ρ) := by
    rw [h.visibleOf, List.map_map, List.map_map]
    exact List.map_congr_left fun q _ => h.fieldOf q
  have hnames : (p'.visibleOf (ρ.reactor d.id)).map (·.name) = (p.visibleOf d.id).map (·.name) := by
    rw [h.visibleOf, List.map_map]
    rfl
  unfold Program.blockOf ClassBlock.rename
  rw [Catalog.Reactor.id_rename, hfields, hnames, h.options, List.map_append, hmerge]
  rfl

theorem hollow? (r : ReactorId) :
    p'.hollow? (ρ.reactor r) = (p.hollow? r).map (Parameter.rename ρ) := by
  have hempty : (fun q => decide (q.default = [])) ∘ Parameter.rename ρ =
      fun q => decide (q.default = []) := by
    funext q
    simp
  unfold Program.hollow?
  rw [h.visibleOf, List.find?_map, hempty]

theorem writtenClass (d : Catalog.Reactor) :
    p'.writtenClass (d.rename ρ) = (p.writtenClass d).map (ClassBlock.rename ρ) := by
  unfold Program.writtenClass
  rw [Catalog.Reactor.id_rename, h.hollow?, h.blockOf]
  cases p.hollow? d.id <;> rfl

theorem classReports (d : Catalog.Reactor) : p'.classReports (d.rename ρ) = p.classReports d := by
  unfold Program.classReports
  rw [Catalog.Reactor.id_rename, h.hollow?]
  cases p.hollow? d.id <;> rfl

/-- The same classes are written, in another order. -/
theorem classes (o : Options) :
    ((p.catalog.reactors.toList.filterMap p.writtenClass).map (ClassBlock.text o)).Perm
      ((p'.catalog.reactors.toList.filterMap p'.writtenClass).map (ClassBlock.text o)) := by
  have hrenamed : ((p.catalog.reactors.toList.map (Catalog.Reactor.rename ρ)).filterMap
      p'.writtenClass).map (ClassBlock.text o) =
        (p.catalog.reactors.toList.filterMap p.writtenClass).map (ClassBlock.text o) := by
    rw [List.filterMap_map, List.map_filterMap, List.map_filterMap]
    apply List.filterMap_congr
    intro d _
    rw [Function.comp_apply, h.writtenClass, Option.map_map]
    exact congrArg (Option.map · (p.writtenClass d)) (funext (ClassBlock.text_rename ρ o))
  rw [← hrenamed]
  exact (h.catalog.reactors.symm.filterMap _).map _

/-- The same is reported about the classes, in another order. -/
theorem classesReports : (p.catalog.reactors.toList.flatMap p.classReports).Perm
    (p'.catalog.reactors.toList.flatMap p'.classReports) := by
  have hrenamed : (p.catalog.reactors.toList.map (Catalog.Reactor.rename ρ)).flatMap
      p'.classReports = p.catalog.reactors.toList.flatMap p.classReports := by
    rw [List.flatMap_map]
    exact List.flatMap_congr fun d _ => h.classReports d
  rw [← hrenamed]
  exact h.catalog.reactors.symm.flatMap_right _

/-! ## Listings -/

theorem listedValue? (v : Value) : p'.listedValue? (v.rename ρ) = p.listedValue? v := by
  cases v with
  | constant k => rfl
  | param q =>
    have hvalue : (Value.param q).rename ρ = .param (ρ.param q) := rfl
    rw [hvalue, Program.listedValue?, Program.listedValue?, h.catalog.parameter]
    cases p.catalog.parameter? q <;> rfl

theorem listedAssignment? (x : Assignment) :
    p'.listedAssignment? (x.rename ρ) = p.listedAssignment? x := by
  have hvalues : (x.rename ρ).values.mapM p'.listedValue? = x.values.mapM p.listedValue? :=
    Lookup.mapM_map_eq fun v _ => h.listedValue? v
  unfold Program.listedAssignment?
  rw [hvalues, Assignment.target_rename, h.catalog.parameter]
  cases p.catalog.parameter? x.target <;> rfl

theorem listedNode? (n : Assembly.Node) : p'.listedNode? (n.rename ρ) = p.listedNode? n := by
  have hassignments : (n.rename ρ).assignments.mapM p'.listedAssignment? =
      n.assignments.mapM p.listedAssignment? :=
    Lookup.mapM_map_eq fun x _ => h.listedAssignment? x
  unfold Program.listedNode?
  rw [hassignments, Assembly.Node.id_rename, Assembly.Node.reactor_rename, h.assembly,
    Assembly.depth?_rename, h.catalog.reactor]
  cases p.catalog.reactor? n.reactor <;> rfl

/-- The tree is listed in the same way. -/
theorem tree? : p'.tree? = p.tree? := by
  unfold Program.tree?
  rw [h.assembly, Assembly.root?_rename]
  cases p.assembly.root? with
  | none => rfl
  | some root =>
    simp only [Assembly.preorder?_rename]
    cases p.assembly.preorder? root with
    | none => rfl
    | some ns =>
      have hlines : (ns.map (Assembly.Node.rename ρ)).mapM p'.listedNode? =
          ns.mapM p.listedNode? :=
        Lookup.mapM_map_eq fun n _ => h.listedNode? n
      simp only [Option.map_some, Option.bind_eq_bind, Option.bind_some, hlines]

end Renames

end Program

end Reactors
