import Reactors.Proofs.Script.Parts
import Reactors.Proofs.Script.Precedence

/-! # Every access finds its property

    A name is bound where it is written, to the identity of a parameter that is visible on the
    reactor there.  It is written out as a name again, behind the variable of an instance whose
    reactor may be another one: a default is inherited by reactors below, and an assignment is read
    from the instance around.  What is visible on a reactor is visible on all reactors that extend
    it, so the class of that instance has a property of the name.  References that name a reactor of
    their own are the exception, and validation warns about them.
-/

namespace Reactors

namespace Catalog

variable {c : Catalog}

/-- What a reactor has the reactors that extend it have too. -/
theorem HasName.mono {r s : ReactorId} {name : String} (h : c.HasName s name)
    (hrs : c.Reaches r s) : c.HasName r name := by
  obtain ⟨t, ht, i, hi, q, hq, hname⟩ := h
  exact ⟨t, hrs.trans ht, i, hi, q, hq, hname⟩

end Catalog

namespace Script

/-- Every name is kept once. -/
theorem mem_firstOccurrences {seen ns : List String} {name : String} :
    name ∈ firstOccurrences seen ns ↔ name ∈ ns ∧ name ∉ seen := by
  induction ns generalizing seen with
  | nil => simp [firstOccurrences]
  | cons n ns ih =>
    unfold firstOccurrences
    by_cases hn : n ∈ seen
    · rw [if_pos hn, ih, List.mem_cons]
      constructor
      · exact fun ⟨hmem, hnot⟩ => ⟨.inr hmem, hnot⟩
      · rintro ⟨rfl | hmem, hnot⟩
        · exact absurd hn hnot
        · exact ⟨hmem, hnot⟩
    · rw [if_neg hn, List.mem_cons, ih, List.mem_cons, List.mem_cons]
      by_cases hname : name = n
      · simp [hname, hn]
      · simp [hname]

end Script

/-! ## The reactor around a place -/

namespace Model

mutual

/-- A place is around nothing of the others, or its parent is one of them and names the reactor that
    its references are read on. -/
theorem outer_places (parent : Option NodeId) (outer : Option String) (above : List String)
    (start : Nat) : (i : Instance) → ∀ x ∈ i.places parent outer above start,
    (x.parent = parent ∧ x.outer = outer) ∨ ∃ y ∈ i.places parent outer above start,
      x.parent = some y.id ∧ x.outer = some y.inst.reactor
  | ⟨name, reactor, assignments, children, span⟩ => by
    intro x hx
    rw [Instance.places] at hx ⊢
    rcases List.mem_cons.mp hx with rfl | hx
    · exact .inl ⟨rfl, rfl⟩
    · right
      rcases outer_placesAll (some ⟨start⟩) (some reactor) (above ++ [name]) (start + 1) children
        x hx with ⟨hparent, houter⟩ | ⟨y, hy, hparent, houter⟩
      · exact ⟨_, List.mem_cons_self, hparent, houter⟩
      · exact ⟨y, List.mem_cons_of_mem _ hy, hparent, houter⟩

theorem outer_placesAll (parent : Option NodeId) (outer : Option String) (above : List String)
    (start : Nat) : (is : List Instance) → ∀ x ∈ placesAll parent outer above start is,
    (x.parent = parent ∧ x.outer = outer) ∨ ∃ y ∈ placesAll parent outer above start is,
      x.parent = some y.id ∧ x.outer = some y.inst.reactor
  | [] => by simp [placesAll]
  | i :: is => by
    intro x hx
    rw [placesAll] at hx ⊢
    rcases List.mem_append.mp hx with hx | hx
    · rcases outer_places parent outer above start i x hx with h | ⟨y, hy, h⟩
      · exact .inl h
      · exact .inr ⟨y, List.mem_append_left _ hy, h⟩
    · rcases outer_placesAll parent outer above (start + i.size) is x hx with h | ⟨y, hy, h⟩
      · exact .inl h
      · exact .inr ⟨y, List.mem_append_right _ hy, h⟩

end

end Model

namespace Program

open Script
open Diagnostic (hasErrors)
open Model (Faithful Term Reference)

variable {m : Model} {p : Program} {vs : List Diagnostic}

/-! ## Warnings about references -/

/-- A reference to a parameter that is not visible where it is read from is warned about. -/
theorem mem_foreignForwards {n : Assembly.Node} {span : Span} {outer : ReactorId}
    {ids qs : List ParamId} {ds : List Diagnostic} {id : ParamId} {d : Diagnostic}
    (h : p.foreignForwards? n span outer ids = some ds) (hid : id ∈ ids)
    (hqs : p.catalog.visibleIds? outer = some qs) (hnot : id ∉ qs)
    (hd : p.foreignForward? n span outer id = some d) : d ∈ ds := by
  induction ids generalizing ds with
  | nil => simp at hid
  | cons i ids ih =>
    unfold foreignForwards? at h
    obtain ⟨visible, hvisible, h⟩ := Option.bind_eq_some_iff.mp h
    rw [hqs] at hvisible
    cases hvisible
    obtain ⟨rest, hrest, h⟩ := Option.bind_eq_some_iff.mp h
    by_cases hi : i ∈ qs
    · rw [if_pos hi] at h
      cases h
      rcases List.mem_cons.mp hid with rfl | hid
      · exact absurd hi hnot
      · exact ih hrest hid
    · rw [if_neg hi] at h
      obtain ⟨e, he, h⟩ := Option.bind_eq_some_iff.mp h
      cases h
      rcases List.mem_cons.mp hid with rfl | hid
      · rw [hd] at he
        cases he
        exact List.mem_cons_self
      · exact List.mem_cons_of_mem _ (ih hrest hid)

theorem mem_assignmentProblems {n o : Assembly.Node} {outer : NodeId} {x : Assignment}
    {qs : List ParamId} {ds : List Diagnostic} {id : ParamId} {d : Diagnostic}
    (h : p.assignmentProblems? n (some outer) x = some ds) (ho : p.assembly.node? outer = some o)
    (hid : .param id ∈ x.values) (hqs : p.catalog.visibleIds? o.reactor = some qs)
    (hnot : id ∉ qs) (hd : p.foreignForward? n x.span o.reactor id = some d) : d ∈ ds := by
  have hids : id ∈ x.values.filterMap Value.reference? :=
    List.mem_filterMap.mpr ⟨.param id, hid, rfl⟩
  have hvalues : x.values.isEmpty = false := by
    rw [List.isEmpty_eq_false_iff]
    exact List.ne_nil_of_mem hid
  have hempty : (x.values.filterMap Value.reference?).isEmpty = false := by
    rw [List.isEmpty_eq_false_iff]
    exact List.ne_nil_of_mem hids
  unfold assignmentProblems? at h
  obtain ⟨target, _, h⟩ := Option.bind_eq_some_iff.mp h
  simp only [hvalues, hempty, Bool.false_eq_true, if_false] at h
  rw [ho] at h
  exact mem_foreignForwards h hids hqs hnot hd

/-- Validation warns about every reference of an assignment to a parameter that is not visible on
    the reactor of the instance around. -/
theorem mem_validate_foreignForward (hp : p.Closed) (hvs : p.validate? = some vs)
    {n o : Assembly.Node} (hn : n ∈ p.nodesOf) {outer : NodeId} (hparent : n.parent = some outer)
    (ho : p.assembly.node? outer = some o) {x : Assignment} (hx : x ∈ n.assignments)
    {id : ParamId} (hid : .param id ∈ x.values) {qs : List ParamId}
    (hqs : p.catalog.visibleIds? o.reactor = some qs) (hnot : id ∉ qs) {d : Diagnostic}
    (hd : p.foreignForward? n x.span o.reactor id = some d) : d ∈ vs := by
  obtain ⟨cs, _, hvs⟩ := Option.bind_eq_some_iff.mp hvs
  obtain ⟨bs, hbs, hvs⟩ := Option.bind_eq_some_iff.mp hvs
  cases hvs
  apply List.mem_append_right
  cases hroot : p.assembly.root? with
  | none => simp [nodesOf, hroot] at hn
  | some root =>
    simp only [assemblyProblems?, hroot] at hbs
    obtain ⟨nodes, hnodes, hbs⟩ := Option.bind_eq_some_iff.mp hbs
    rw [(hp.preorder hroot).1] at hnodes
    cases hnodes
    obtain ⟨problems, hproblems, hbs⟩ := Option.bind_eq_some_iff.mp hbs
    cases hbs
    obtain ⟨ds, hds, hnds⟩ := Lookup.exists_mem_of_mapM hproblems hn
    refine List.mem_flatten.mpr ⟨ds, hds, ?_⟩
    -- among the problems of the instance those of the assignment, and the warning among these
    obtain ⟨scope, hscope, hnds⟩ := Option.bind_eq_some_iff.mp hnds
    rw [Assembly.ancestor?_one (hp.found hn), hparent] at hscope
    cases hscope
    obtain ⟨groups, hgroups, hnds⟩ := Option.bind_eq_some_iff.mp hnds
    cases hnds
    obtain ⟨es, hes, hxes⟩ := Lookup.exists_mem_of_mapM hgroups hx
    exact List.mem_flatten.mpr ⟨es, hes, mem_assignmentProblems hxes ho hid hqs hnot hd⟩

/-! ## Names on classes -/

/-- A name that a reactor has is that of one of its visible parameters. -/
theorem exists_visible_of_hasName (hp : p.Closed) {r : ReactorId} (hr : p.catalog.HasReactor r)
    {name : String} (h : p.catalog.HasName r name) : ∃ w ∈ p.visibleOf r, w.name = name := by
  obtain ⟨s, hs, i, hi, w, hw, hname⟩ := h
  exact ⟨w, (hp.catalog.mem_visible_iff hr (hp.visible? hr)).mpr ⟨s, hs, i, hi, hw⟩, hname⟩

/-- The class of a reactor has a property of a name: it is among the names that have one, and in the
    text of the properties stands one that returns the field of the name. -/
def HasProperty (p : Program) (r : ReactorId) (name : String) : Prop :=
  ∃ names block, p.properties? r = some names ∧ name ∈ names ∧
    IsProperty p.options name block ∧ StandsIn block (propertiesText p.options names)

/-- The constructor of a reactor sets the field of a name: it has a line that assigns the field, and
    in the text of the lines stands one that sets it. -/
def HasField (p : Program) (r : ReactorId) (name : String) : Prop :=
  ∃ lines id type terms value line, (p.skeleton r).run = some (.ok lines) ∧
    .assign id name type terms value ∈ lines ∧ SetsField name value line ∧
    StandsIn line (skeletonText lines)

/-- A visible name has its property. -/
theorem hasProperty_of_hasName (hp : p.Closed) {r : ReactorId} (hr : p.catalog.HasReactor r)
    {name : String} (h : p.catalog.HasName r name) : p.HasProperty r name := by
  obtain ⟨w, hw, hname⟩ := exists_visible_of_hasName hp hr h
  have hmem : name ∈ firstOccurrences [] ((p.visibleOf r).map (·.name)) :=
    mem_firstOccurrences.mpr ⟨List.mem_map.mpr ⟨w, hw, hname⟩, by simp⟩
  refine ⟨_, propertyText p.options name, ?_, hmem, isProperty_propertyText _ _,
    standsIn_propertiesText hmem⟩
  simp [properties?, hp.visible? hr]

/-- A visible name has its field. -/
theorem hasField_of_hasName (hp : p.Closed) (hvs : p.validate? = some vs)
    (hno : hasErrors vs = false) {r : ReactorId} (hr : p.catalog.HasReactor r) {name : String}
    (h : p.catalog.HasName r name) : p.HasField r name := by
  obtain ⟨d, hd⟩ := Catalog.hasReactor_iff.mp hr
  obtain rfl : d.id = r := hp.catalog.reactor_id hd
  obtain ⟨w, hw, rfl⟩ := exists_visible_of_hasName hp hr h
  have hfield : p.fieldOf w ∈ (p.blockOf d).skeleton :=
    List.mem_append_left _ (List.mem_cons_of_mem _ (List.mem_map_of_mem (f := p.fieldOf) hw))
  exact ⟨(p.blockOf d).skeleton, w.id, typeName? w.typeText, w.default.map p.classExpr,
    p.tupleText (w.default.map p.classExpr), _, skeleton_of_valid hp hvs hno hd, hfield,
    setsField_text _ _ _ _ _, standsIn_skeletonText hfield⟩

/-- An expression reads the parameter of a name of the instance `i`: its text is the variable of
    `i`, a point and the name, and the class of the reactor of `i` has a property of the name. -/
structure Finds (p : Program) (i : NodeId) (name : String) (t : Expr) : Prop where
  text : ∃ path, p.assembly.path? i = some path ∧ t.text = path ++ "." ++ name
  property : ∃ n, p.assembly.node? i = some n ∧ p.HasProperty n.reactor name

/-- A reference in the assignment `a` of the instance `n` about which there is no warning: it is a
    name alone, or the warning that it is read from a reactor without the parameter is not there. -/
def Unwarned (p : Program) (vs : List Diagnostic) (n : Assembly.Node) (a : Model.Assignment) :
    Reference → Prop
  | .plain _ => True
  | .qualified name reactor => ∀ outer o id d, n.parent = some outer →
    p.assembly.node? outer = some o → p.catalog.StandsFor reactor name id →
    p.foreignForward? n a.span o.reactor id = some d → d ∉ vs

/-- What the assignment `a` of the instance `n` of a place sets is resolved to the terms of `a`, and
    each reference in them about which there is no warning finds the instance around. -/
def OverrideFinds (p : Program) (vs : List Diagnostic) (x : Model.Place) (n : Assembly.Node)
    (a : Model.Assignment) : Prop :=
  ∃ q res, p.catalog.StandsFor x.inst.reactor a.target q ∧
    (p.resolve ⟨q, n.id⟩).run = some (.ok res) ∧ res.origin = .override ∧
    List.Forall₂ (fun t e => ∀ r, t = .param r → p.Unwarned vs n a r →
      ∃ outer, x.parent = some outer ∧ p.Finds outer r.name e) a.terms res.terms

/-- The parameter `q` is declared by a reactor that the one of the instance `n` extends or is.  Its
    default can be resolved on the instance, and is what `q` is resolved to where nothing is
    assigned.  Each name alone in it finds the instance itself, and the constructor of its class
    assigns the field of the name. -/
def DefaultFinds (m : Model) (p : Program) (n : Assembly.Node) (q : ParamId) : Prop :=
  ∃ r ∈ m.reactors, ∃ owner d z res, p.catalog.ReactorNamed r.name owner ∧
    p.catalog.Reaches n.reactor owner ∧ (d, q) ∈ r.parameters.zip (p.catalog.own owner) ∧
    p.catalog.parameter? q = some z ∧ (p.resolveDefault z n.id).run = some (.ok res) ∧
    res.origin = .default ∧
    (p.assembly.settingOf? ⟨q, n.id⟩ = some none → (p.resolve ⟨q, n.id⟩).run = some (.ok res)) ∧
    List.Forall₂ (fun t e => ∀ name, t = .param (.plain name) →
      p.Finds n.id name e ∧ p.HasField n.reactor name) d.default res.terms

/-- Every access in the values of the instance `n` of a place finds its property. -/
structure Accessible (m : Model) (p : Program) (vs : List Diagnostic) (x : Model.Place)
    (n : Assembly.Node) : Prop where
  /-- The last assignment of each name. -/
  overrides : ∀ before a after, x.inst.assignments = before ++ a :: after →
    (∀ b ∈ after, b.target ≠ a.target) → p.OverrideFinds vs x n a
  /-- The default of each visible parameter. -/
  defaults : ∀ ids, p.catalog.visibleIds? n.reactor = some ids → ∀ q ∈ ids, DefaultFinds m p n q

/-! ## Accepted models -/

section instances
variable (hm : Faithful m p) (hloaded : Model.Loaded p) (hvs : p.validate? = some vs)
  (hno : hasErrors vs = false) {x : Model.Place} {n : Assembly.Node} (hn : n ∈ p.nodesOf)
include hm hloaded

/-- Names alone in the assignments of an instance are those of the reactor of the instance
    around. -/
theorem outer_named {x : Model.Place} (hx : x ∈ m.places) {outer : NodeId}
    (hparent : x.parent = some outer) {o : Assembly.Node}
    (ho : p.assembly.node? outer = some o) :
    ∃ reactor, x.outer = some reactor ∧ p.catalog.ReactorNamed reactor o.reactor := by
  rcases Model.outer_places none none [] 0 m.main x hx with ⟨hnone, _⟩ | ⟨y, hy, hyparent, hyouter⟩
  · simp [hnone] at hparent
  · obtain ⟨n', hn', _, _, hyn⟩ := Lookup.exists_mem_of_forall₂ (forall₂_nodesOf hm) hy
    have hp := closed_of_loaded hloaded
    have hfound := hp.found hn'
    rw [hparent] at hyparent
    rw [hyn.id, ← Option.some.inj hyparent, ho] at hfound
    cases hfound
    exact ⟨y.inst.reactor, hyouter, hyn.reactor⟩

omit hm in
/-- A name that stands for a parameter on a reactor is one that the reactor has. -/
theorem hasName_of_standsFor {reactor name : String} {r : ReactorId}
    (hr : p.catalog.ReactorNamed reactor r) {q : ParamId}
    (h : p.catalog.StandsFor reactor name q) : p.catalog.HasName r name := by
  obtain ⟨s, hs, hlast⟩ := h
  rw [hs.eq hloaded.catalog hloaded.distinct hr] at hlast
  exact hlast.hasName hloaded.catalog hr.hasReactor

include hvs hn

/-- What is written in an assignment and gives no warning is visible around the instance. -/
theorem hasName_of_unwarned {outer : NodeId} (hparent : n.parent = some outer)
    {o : Assembly.Node} (ho : p.assembly.node? outer = some o) {a : Model.Assignment}
    {y : Assignment} (hy : y ∈ n.assignments) (hspan : y.span = a.span) (hx : x ∈ m.places)
    (hxn : Model.Place.Denotes p.catalog x n) {r : Reference} {id : ParamId}
    (hid : .param id ∈ y.values)
    (hr : Term.Denotes p.catalog x.outer (.param r) (.param id)) (hquiet : p.Unwarned vs n a r) :
    p.catalog.HasName o.reactor r.name := by
  have hp := closed_of_loaded hloaded
  have hreactor := hp.reactor ho
  cases hr with
  | plain hscope hstands =>
    obtain ⟨reactor, houter, hnamed⟩ := outer_named hm hloaded hx (hxn.parent ▸ hparent) ho
    rw [hscope] at houter
    cases houter
    exact hasName_of_standsFor hloaded hnamed hstands
  | qualified hstands =>
    have hids := hp.catalog.visibleIds?_of_visible (hp.visible? hreactor)
    have hknown := hp.values (hp.found hn) y hy _ hid id rfl
    obtain ⟨d, hd⟩ := exists_foreignForward hp n y.span hreactor hknown
    -- it would be warned about if it were not visible
    have hmem : id ∈ (p.visibleOf o.reactor).map (·.id) := by
      by_contra hnot
      exact hquiet outer o id d hparent ho hstands (hspan ▸ hd)
        (mem_validate_foreignForward hp hvs hn hparent ho hy hid hids hnot hd)
    obtain ⟨s, hs, hown⟩ := (hp.catalog.mem_visibleIds_iff hreactor hids).mp hmem
    obtain ⟨q, hq, hname⟩ := hstands.named
    exact ⟨s, hs, id, hown, q, hq, hname⟩

include hno

/-- The last assignment of a name gives the terms, and what is not warned about is visible around
    the instance. -/
theorem overrides_accessible (hx : x ∈ m.places) (hxn : Model.Place.Denotes p.catalog x n)
    {before after : List Model.Assignment} {a : Model.Assignment}
    (hsplit : x.inst.assignments = before ++ a :: after)
    (hlast : ∀ b ∈ after, b.target ≠ a.target) : p.OverrideFinds vs x n a := by
  have hp := closed_of_loaded hloaded
  have hfound := hp.found hn
  obtain ⟨y, w, hay, hw, hsetting⟩ := exists_lastSetting hm hxn hsplit hlast
  have hwmem := (Catalog.lastNamed?_eq_some hw).1
  have hwfound := hp.parameter?_of_visibleOf (hp.reactor hfound) hwmem
  have hy : y ∈ n.assignments := List.mem_reverse.mp (List.mem_of_find?_eq_some hsetting)
  have htarget : y.target = w.id := by simpa using List.find?_some hsetting
  have hfault : slotFault? n w = none := by
    simpa [slotReports] using slotReports_of_valid hp hvs hno hn w hwmem
  have hresolve := resolve_gives hp hfound hwfound
  have hres : p.resolutionAt n w =
      ⟨y.values.map (p.outerExpr (n.parent.getD n.id)), .override⟩ := by
    simp [resolutionAt, hsetting]
  rw [hfault, hres] at hresolve
  refine ⟨w.id, _, htarget ▸ hay.target, hresolve, rfl, ?_⟩
  rw [List.forall₂_map_right_iff]
  apply (Lookup.forall₂_mem hay.values).imp
  rintro t v ⟨_, hv, hden⟩ r rfl hquiet
  obtain ⟨id, rfl, _⟩ := hden.named
  cases hparent : n.parent with
  | none =>
    -- the root has no assignments that refer to parameters
    have hroot := (settingFault?_eq_none_iff.mp
      (by simpa [slotFault?, hsetting] using hfault)).2 hparent _ hv
    simp [Value.reference?] at hroot
  | some outer =>
    obtain ⟨o, ho, _⟩ := hp.assembly.parent hfound hparent
    have hname := hasName_of_unwarned hm hloaded hvs hn hparent ho hy hay.span hx hxn hv hden
      hquiet
    exact ⟨outer, hxn.parent ▸ hparent,
      ⟨p.pathOf outer, hp.path? (Assembly.hasNode_of_some ho), text_outerExpr hden outer⟩,
      o, ho, hasProperty_of_hasName hp (hp.reactor ho) hname⟩

/-- The names alone in a default are those of the reactor that declares it, which the instance has
    too. -/
theorem defaults_accessible {ids : List ParamId}
    (hids : p.catalog.visibleIds? n.reactor = some ids) {q : ParamId} (hq : q ∈ ids) :
    DefaultFinds m p n q := by
  have hp := closed_of_loaded hloaded
  have hfound := hp.found hn
  have hreactor := hp.reactor hfound
  obtain ⟨owner, hreaches, hown⟩ := (hp.catalog.mem_visibleIds_iff hreactor hids).mp hq
  obtain ⟨r, hr, hnamed, d, hdq, z, hz, _, hdz⟩ := hm.catalog.exists_declared hown
  obtain rfl : z.id = q := hp.catalog.parameter_id hz
  have hzmem : z ∈ p.visibleOf n.reactor :=
    (hp.catalog.mem_visible_iff hreactor (hp.visible? hreactor)).mpr ⟨owner, hreaches, _, hown, hz⟩
  have hne := default_ne_nil_of_valid hp hvs hno hreactor hzmem
  have hdefault := resolveDefault_gives hp hfound hz
  rw [if_neg hne] at hdefault
  refine ⟨r, hr, owner, d, z, _, hnamed, hreaches, hdq, hz, hdefault, rfl, ?_, ?_⟩
  · intro hunset
    have hlast : Assembly.lastSetting? z.id n.assignments = none := by
      simpa [Assembly.settingOf?, hfound] using hunset
    have hresolve := resolve_gives hp hfound hz
    simp only [slotFault?, resolutionAt, hlast, if_neg hne] at hresolve
    exact hresolve
  · rw [List.forall₂_map_right_iff]
    apply hdz.default.imp
    rintro t v hden name rfl
    have hname : p.catalog.HasName n.reactor name := by
      cases hden with
      | plain hscope hstands =>
        cases hscope
        exact (hasName_of_standsFor hloaded hnamed hstands).mono hreaches
    have hpath := hp.path? (Assembly.hasNode_of_some hfound)
    exact ⟨⟨⟨p.pathOf n.id, hpath, text_ownExpr hden n.id⟩,
      n, hfound, hasProperty_of_hasName hp hreactor hname⟩,
      hasField_of_hasName hp hvs hno hreactor hname⟩

end instances

/-- In an accepted model without an error, under any options, no access dangles: every reference in
    an assignment that counts, save those that validation warns about, and every name alone in the
    default of a visible parameter is written as the variable of an instance, a point and the name,
    and the class of this instance has a property of the name written out. -/
theorem no_dangling_access (h : m.elaborate = some (.ok p)) (hvs : p.validate? = some vs)
    (hno : hasErrors vs = false) (o : Options) :
    ∀ x ∈ m.places, ∃ n, p.assembly.node? x.id = some n ∧
      Accessible m { p with options := o } vs x n := by
  have hm := (Model.faithful_of_quiet (Model.bindAll_quiet h)).withOptions o
  have hloaded := (Model.loaded_of_elaborate h).1.withOptions o
  have hp := closed_of_loaded hloaded
  have hvs' := (validate?_withOptions o).trans hvs
  intro x hx
  obtain ⟨n, _, _, hn, hxn⟩ := Lookup.exists_mem_of_forall₂ (forall₂_nodesOf hm) hx
  refine ⟨n, hxn.id ▸ hp.found hn, ?_, ?_⟩
  · intro before a after hsplit hlast
    exact overrides_accessible hm hloaded hvs' hno hn hx hxn hsplit hlast
  · intro ids hids q hq
    exact defaults_accessible hm hloaded hvs' hno hn hids hq

open Model (nesting nestingProgram)

/-- The reference of the child names a reactor, is visible on the root and finds it there. -/
theorem no_dangling_access_nesting :
    nesting.elaborate = some (.ok nestingProgram) ∧ nestingProgram.validate? = some [] ∧
      hasErrors [] = false ∧ ∃ q res e, nestingProgram.catalog.StandsFor "B" "x" q ∧
        (nestingProgram.resolve ⟨q, ⟨1⟩⟩).run = some (.ok res) ∧ res.terms = [e] ∧
        nestingProgram.Finds ⟨0⟩ "x" e := by
  have hload := Model.elaborate_nesting
  have hvalid : nestingProgram.validate? = some [] := rfl
  have hall := no_dangling_access hload hvalid rfl .standard
  rw [Model.places_nesting] at hall
  obtain ⟨n, hn, haccess⟩ := hall _ (List.mem_cons_of_mem _ List.mem_cons_self)
  cases hn
  obtain ⟨q, res, hq, hres, _, hterms⟩ := haccess.overrides [] _ [] rfl (by simp)
  obtain ⟨e, rest, he, hrest, hres_terms⟩ := List.forall₂_cons_left_iff.mp hterms
  obtain rfl := List.forall₂_nil_left_iff.mp hrest
  have hquiet : nestingProgram.Unwarned [] ⟨⟨1⟩, "b", ⟨0⟩, some ⟨0⟩, [],
      [⟨⟨1⟩, [.param ⟨1⟩], .nowhere⟩], .nowhere⟩ ⟨"x", [.param (.qualified "x" "A")], .nowhere⟩
      (.qualified "x" "A") := by
    intro _ _ _ _ _ _ _ _
    exact List.not_mem_nil
  obtain ⟨outer, houter, hfinds⟩ := he _ rfl hquiet
  cases houter
  exact ⟨hload, hvalid, rfl, q, res, e, hq, hres, hres_terms, hfinds⟩

end Program

end Reactors
