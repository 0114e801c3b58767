import Reactors.Proofs.Catalog.Order
import Reactors.Proofs.Script.Parts
import Reactors.Proofs.Script.Timeliness

/-! # What a constructor reads has been assigned

    A constructor assigns the fields of the visible parameters in their order: those of what a
    reactor extends before its own ones.  So a default that reads an inherited parameter, or one
    declared before it, reads a field that is there.  A default may refer to other parameters too:
    to itself, to one declared behind it, or to one of a reactor that is not extended.  The field it
    reads is there then exactly if another parameter of this name comes before.
-/

namespace Reactors

namespace Script

/-- The name of the field that a line assigns. -/
def Line.assigns? : Line → Option String
  | .assign _ name _ _ _ => some name
  | _ => none

/-- Every field that a line reads is assigned by a line before it. -/
def AssignsBeforeReading (lines : List Line) : Prop :=
  ∀ before line after, lines = before ++ line :: after → ∀ name, .field name ∈ line.terms →
    ∃ l ∈ before, l.assigns? = some name

end Script

namespace Catalog

variable {c : Catalog}

/-- Of the parameters that a reactor declares itself, `w` comes before `q`. -/
def DeclaredBefore (c : Catalog) (w q : ParamId) : Prop :=
  ∃ r us vs ws, c.own r = us ++ w :: vs ++ q :: ws

/-- The owner of `q` extends that of `w`, or is the same and declares `w` before `q`. -/
def Precedes (c : Catalog) (w q : Parameter) : Prop :=
  Relation.TransGen c.Extends q.owner w.owner ∨ c.DeclaredBefore w.id q.id

end Catalog

namespace Program

open Script
open Diagnostic (hasErrors)

variable {m : Model} {p : Program}

/-! ## The order of visible parameters -/

section order
variable {rs : List Model.Reactor} (hc : Model.Catalogued rs p.catalog)
  (hacyclic : ∀ r, ¬ p.catalog.Circular r)
include hc hacyclic

/-- A parameter that precedes a visible one is visible, and stands before it. -/
theorem mem_before_of_precedes {r : ReactorId} (hr : p.catalog.HasReactor r)
    {before after : List ParamId} {q w : Catalog.Parameter}
    (hids : p.catalog.visibleIds? r = some (before ++ q.id :: after))
    (hq : p.catalog.parameter? q.id = some q) (hw : p.catalog.parameter? w.id = some w)
    (h : p.catalog.Precedes w q) : w.id ∈ before := by
  rw [hc.closed.visibleIds?_eq hr] at hids
  obtain ⟨earlier, s, later, us, vs, hlineage, hown, rfl, -⟩ :=
    exists_split_flatMap (Option.some.inj hids)
  have hqown : q.id ∈ p.catalog.own s := by simp [hown]
  -- `s` is the owner of `q`
  have hs : s = q.owner := by
    by_contra hne
    exact hc.own_disjoint hne hqown (hc.mem_own hq)
  rcases h with htrans | ⟨t, us', vs', ws, ht⟩
  · have hfirst := Catalog.lineage_supersFirst hc.closed hr fun x _ => hacyclic x
    have hmem := hfirst.mem_before hlineage (hs ▸ htrans)
    exact List.mem_append_left _ (List.mem_flatMap.mpr ⟨w.owner, hmem, hc.mem_own hw⟩)
  · have hst : s = t := by
      by_contra hne
      exact hc.own_disjoint hne hqown (by simp [ht])
    subst hst
    have hnodup := hc.nodup_own s
    rw [hown] at ht hnodup
    have hus : q.id ∉ us := fun h => List.disjoint_of_nodup_append hnodup h List.mem_cons_self
    have hvs : q.id ∉ vs := (List.nodup_cons.mp (List.nodup_append.mp hnodup).2.1).1
    obtain ⟨rfl, -⟩ := (List.append_cons_inj_of_notMem hus hvs).mp ht
    simp

end order

/-! ## What a line of a constructor reads -/

/-- The expression `t` in the line of `q` reads the parameter `w`.  Before the line stand `before`,
    and before `q` the parameters `earlier` are visible. -/
structure ReadsField (p : Program) (before : List Line) (earlier : List Catalog.Parameter)
    (q w : Catalog.Parameter) (t : Expr) : Prop where
  text : t.text = "self." ++ fieldName w.name
  /-- The field is assigned before exactly if a parameter of the name is visible before. -/
  assigned_iff : (∃ l ∈ before, l.assigns? = some w.name) ↔ ∃ e ∈ earlier, e.name = w.name
  /-- What precedes `q` is. -/
  earlier : p.catalog.Precedes w q → w ∈ earlier

/-- A line that assigns a field, in the constructor of a reactor. -/
theorem exists_visible_of_assign {r : ReactorId} {before after : List Line} {id : ParamId}
    {name : String} {type : Option String} {terms : List Expr} {value : String}
    (h : .comment "Define parameters and their default values" ::
      (p.visibleOf r).map p.fieldOf ++ mergeLines p.options.style =
        before ++ .assign id name type terms value :: after) :
    ∃ earlier q later, p.visibleOf r = earlier ++ q :: later ∧
      before = .comment "Define parameters and their default values" :: earlier.map p.fieldOf ∧
      p.fieldOf q = .assign id name type terms value := by
  have hlast : .assign id name type terms value ∉ mergeLines p.options.style := by
    intro hmem
    cases hstyle : p.options.style <;> simp [mergeLines, hstyle] at hmem
  rcases List.append_eq_append_iff.mp h with ⟨rest, rfl, hrest⟩ | ⟨rest, hbefore, hrest⟩
  · -- the line would be one of those behind the fields
    exact absurd (hrest ▸ List.mem_append_right _ List.mem_cons_self) hlast
  · cases rest with
    | nil =>
      rw [List.nil_append] at hrest
      exact absurd (hrest ▸ List.mem_cons_self) hlast
    | cons line rest =>
      obtain ⟨rfl, -⟩ := List.cons.inj hrest
      cases before with
      | nil => cases hbefore
      | cons first before =>
        obtain ⟨rfl, hfields⟩ := List.cons.inj hbefore
        obtain ⟨earlier, tail, hvisible, rfl, htail⟩ := List.map_eq_append_iff.mp hfields
        obtain ⟨q, later, rfl, hq, rfl⟩ := List.map_eq_cons_iff.mp htail
        exact ⟨earlier, q, later, hvisible, rfl, hq⟩

/-- The value of a line is the tuple of its terms. -/
theorem value_of_fieldOf {q : Catalog.Parameter} (hne : q.default ≠ []) {id : ParamId}
    {name : String} {type : Option String} {terms : List Expr} {value : String}
    (h : p.fieldOf q = .assign id name type terms value) :
    tuple? p.options.separator (terms.map Expr.text) = some value := by
  cases h
  exact tuple?_eq_some (mt List.map_eq_nil_iff.mp hne)

/-- The fields assigned before are those of the parameters before. -/
theorem assigns_before_iff {earlier : List Catalog.Parameter} {text name : String} :
    (∃ l ∈ .comment text :: earlier.map p.fieldOf, l.assigns? = some name) ↔
      ∃ e ∈ earlier, e.name = name := by
  simp [Line.assigns?, fieldOf]

/-- Everything that a constructor reads is the field of a parameter, and stands in the value of a
    line.  The fields of inherited parameters, and of those declared before, have been assigned;
    that of any other parameter has been exactly if another parameter of its name came before.  This
    is so under all options. -/
theorem skeleton_reads (h : m.elaborate = some (.ok p)) {vs : List Diagnostic}
    (hvs : p.validate? = some vs) (hno : hasErrors vs = false) (o : Options) {r : ReactorId}
    (hr : p.catalog.HasReactor r) :
    ∃ lines, (({ p with options := o } : Program).skeleton r).run = some (.ok lines) ∧
      skeletonText lines = "\n".intercalate (lines.map Line.text) ∧
      ∀ before id name type terms value after,
        lines = before ++ .assign id name type terms value :: after →
        SetsField name value (Line.assign id name type terms value).text ∧
        tuple? o.separator (terms.map Expr.text) = some value ∧
        ∃ earlier q later, p.catalog.visible? r = some (earlier ++ q :: later) ∧ q.id = id ∧
          q.name = name ∧ List.Forall₂ (fun v t => ∀ i, v = .param i →
            ∃ w, p.catalog.parameter? i = some w ∧ p.ReadsField before earlier q w t)
            q.default terms := by
  have hm := Model.faithful_of_quiet (Model.bindAll_quiet h)
  have hloaded := (Model.loaded_of_elaborate h).1
  have hp := closed_of_loaded (hloaded.withOptions o)
  have hacyclic := hm.catalog.represents.acyclic_iff.mpr
    (Model.wellFormed_of_quiet (Model.bindAll_quiet h)).acyclic
  obtain ⟨d, hd⟩ := Catalog.hasReactor_iff.mp hr
  obtain rfl : d.id = r := hp.catalog.reactor_id hd
  have hvs' := (validate?_withOptions o).trans hvs
  refine ⟨_, skeleton_of_valid hp hvs' hno hd, rfl, ?_⟩
  intro before id name type terms value after hsplit
  obtain ⟨earlier, q, later, hvisible, rfl, hq⟩ := exists_visible_of_assign hsplit
  have hqs : p.catalog.visible? d.id = some (earlier ++ q :: later) :=
    (hp.visible? hr).trans (congrArg some hvisible)
  have hqfound := hp.catalog.parameter?_of_visible hqs (by simp : q ∈ _)
  have hne : q.default ≠ [] :=
    default_ne_nil_of_valid hp hvs' hno hr (hvisible ▸ List.mem_append_right _ List.mem_cons_self)
  have hvalue := value_of_fieldOf hne hq
  cases hq
  refine ⟨setsField_text _ _ _ _ _, hvalue, earlier, q, later, hqs, rfl, rfl, ?_⟩
  rw [List.forall₂_map_right_iff, List.forall₂_same]
  rintro v hv i rfl
  obtain ⟨w, hw⟩ := Catalog.hasParameter_iff.mp (hp.catalog.default hqfound _ hv i rfl)
  obtain rfl : w.id = i := hp.catalog.parameter_id hw
  refine ⟨w, hw, ?_, assigns_before_iff, ?_⟩
  · rw [classExpr, nameOf_eq hw, Expr.text]
  · intro hprecedes
    have hids := hp.catalog.visibleIds?_of_visible hqs
    rw [List.map_append, List.map_cons] at hids
    obtain ⟨w', hw', hid⟩ := List.mem_map.mp
      (mem_before_of_precedes hm.catalog hacyclic hr hids hqfound hw hprecedes)
    have hfound := hp.catalog.parameter?_of_visible hqs (by simp [hw'] : w' ∈ _)
    rw [hid, hw] at hfound
    exact Option.some.inj hfound ▸ hw'

open Model (nesting nestingProgram)

/-- The constructor of the reactor of `nesting` that extends the other one. -/
def nestingSkeleton : List Line :=
  [.comment "Define parameters and their default values",
    .assign ⟨1⟩ "x" (some "int") [.constant "1"] "1",
    .assign ⟨0⟩ "y" none [.field "x", .constant "2"] "(self._x, 2)"]

/-- The inherited parameter that the second line reads is assigned in the first. -/
theorem skeleton_reads_nesting :
    nesting.elaborate = some (.ok nestingProgram) ∧ nestingProgram.validate? = some [] ∧
      hasErrors [] = false ∧ nestingProgram.catalog.HasReactor ⟨0⟩ ∧
      (nestingProgram.skeleton ⟨0⟩).run = some (.ok nestingSkeleton) ∧
      ∃ l ∈ nestingSkeleton.take 2, l.assigns? = some "x" := by
  have hload := Model.elaborate_nesting
  have hvalid : nestingProgram.validate? = some [] := rfl
  have hthere : nestingProgram.catalog.HasReactor ⟨0⟩ := Catalog.hasReactor_iff.mpr ⟨_, rfl⟩
  have hrun : (nestingProgram.skeleton ⟨0⟩).run = some (.ok nestingSkeleton) := rfl
  refine ⟨hload, hvalid, rfl, hthere, hrun, ?_⟩
  obtain ⟨lines, hlines, _, hall⟩ := skeleton_reads hload hvalid rfl .standard hthere
  have heq : lines = nestingSkeleton := by
    rw [show { nestingProgram with options := .standard } = nestingProgram from rfl, hrun] at hlines
    cases hlines
    rfl
  obtain ⟨_, _, earlier, q, later, hqs, hid, _, hterms⟩ :=
    hall (nestingSkeleton.take 2) _ _ _ _ _ [] heq
  have hq := (closed_of_loaded (Model.loaded_of_elaborate hload).1).catalog.parameter?_of_visible
    hqs (by simp : q ∈ _)
  rw [hid] at hq
  cases hq
  obtain ⟨w, hw, hreads⟩ := (List.forall₂_cons.mp hterms).1 _ rfl
  cases hw
  -- the reactor of the second line extends that of the first
  have hextends : nestingProgram.catalog.Extends ⟨0⟩ ⟨1⟩ := List.mem_cons_self
  exact hreads.assigned_iff.mpr ⟨_, hreads.earlier (.inl (.single hextends)), rfl⟩

/-! ## What is not assigned before

    A default may refer to a parameter that is declared behind it, or to itself. -/

/-- A reactor with a default that reads a later parameter and one that reads itself, and another
    reactor with a default that reads a parameter of the first, which it does not extend. -/
def early : Model where
  options := .standard
  reactors :=
    [⟨"A", [], [⟨"x", none, [.param (.plain "y")], .nowhere⟩,
        ⟨"y", none, [.int 1], .nowhere⟩, ⟨"z", none, [.param (.plain "z")], .nowhere⟩], .nowhere⟩,
      ⟨"B", [], [⟨"w", none, [.param (.qualified "x" "A")], .nowhere⟩], .nowhere⟩]
  main := ⟨"main", "A", [], [], .nowhere⟩

/-- The program of `early`. -/
def earlyProgram : Program where
  catalog :=
    { reactors := #[⟨⟨0⟩, "A", [], [⟨0⟩, ⟨1⟩, ⟨2⟩], .nowhere⟩, ⟨⟨1⟩, "B", [], [⟨3⟩], .nowhere⟩]
      parameters :=
        #[⟨⟨0⟩, ⟨0⟩, "x", none, [.param ⟨1⟩], .nowhere⟩,
          ⟨⟨1⟩, ⟨0⟩, "y", none, [.constant (.int 1)], .nowhere⟩,
          ⟨⟨2⟩, ⟨0⟩, "z", none, [.param ⟨2⟩], .nowhere⟩,
          ⟨⟨3⟩, ⟨1⟩, "w", none, [.param ⟨0⟩], .nowhere⟩] }
  assembly := { nodes := #[⟨⟨0⟩, "main", ⟨0⟩, none, [], [], .nowhere⟩] }

/-- Both constructors read fields before they are assigned: that of a later parameter, that of the
    parameter itself, and that of a reactor that is not extended. -/
theorem early_reads :
    early.elaborate = some (.ok earlyProgram) ∧ earlyProgram.validate? = some [] ∧
      ∃ lines lines', (earlyProgram.skeleton ⟨0⟩).run = some (.ok lines) ∧
        skeletonText lines = "# Define parameters and their default values\n" ++
          "self._x = self._y\nself._y = 1\nself._z = self._z" ∧
        ¬ AssignsBeforeReading lines ∧
        (earlyProgram.skeleton ⟨1⟩).run = some (.ok lines') ∧
        skeletonText lines' =
          "# Define parameters and their default values\nself._w = self._x" ∧
        ¬ AssignsBeforeReading lines' := by
  refine ⟨rfl, rfl, _, _, rfl, by decide, ?_, rfl, by decide, ?_⟩
  · intro h
    obtain ⟨l, hl, hassigns⟩ := h [.comment "Define parameters and their default values"] _ _ rfl
      "y" List.mem_cons_self
    obtain rfl := List.mem_singleton.mp hl
    cases hassigns
  · intro h
    obtain ⟨l, hl, hassigns⟩ := h [.comment "Define parameters and their default values"] _ _ rfl
      "x" List.mem_cons_self
    obtain rfl := List.mem_singleton.mp hl
    cases hassigns

end Program

end Reactors
