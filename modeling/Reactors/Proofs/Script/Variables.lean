import Reactors.Proofs.Json.Members
import Reactors.Proofs.Model.Faithful
import Reactors.Proofs.Script.Duplicates

/-! # The variables of instances

    The variable of an instance is made of the names from the root down to it, joined by
    underscores.  It does not say where a name ends: two instances have one variable exactly if
    their names have the same parts between underscores.  Where no two instances do, every
    construction binds a variable of its own, every read is of one instance alone, and the object of
    all values has a member for each instance.
-/

namespace Reactors

namespace Script

/-! ## Joined names -/

/-- The variable for the names from the root down to an instance. -/
def variableOf (trail : List String) : String := "_".intercalate trail ++ "_lf"

/-- The parts of names between underscores, those of one name behind those of the other. -/
def parts (trail : List String) : List (List Char) :=
  trail.flatMap fun name => name.toList.splitOn '_'

/-- Joined names have the parts of the names. -/
theorem splitOn_intercalate_names {trail : List String} (h : trail ≠ []) :
    ("_".intercalate trail).toList.splitOn '_' = parts trail := by
  induction trail with
  | nil => exact absurd rfl h
  | cons name trail ih =>
    cases trail with
    | nil => simp [parts]
    | cons next trail =>
      have hrest : next :: trail ≠ [] := List.cons_ne_nil _ _
      have hsep : (name ++ "_" ++ "_".intercalate (next :: trail)).toList =
          name.toList ++ '_' :: ("_".intercalate (next :: trail)).toList := by simp
      rw [String.intercalate_cons_of_ne_nil hrest, hsep, List.splitOn_append_cons_self, ih hrest]
      rfl

/-- Names give one variable exactly if they have the same parts. -/
theorem variableOf_eq_iff {trail other : List String} (h : trail ≠ []) (h' : other ≠ []) :
    variableOf trail = variableOf other ↔ parts trail = parts other := by
  rw [← splitOn_intercalate_names h, ← splitOn_intercalate_names h']
  constructor
  · intro heq
    have hlists := congrArg String.toList heq
    simp only [variableOf, String.toList_append] at hlists
    rw [List.append_cancel_right hlists]
  · intro heq
    have hlists := congrArg (['_'].intercalate ·) heq
    simp only [List.intercalate_splitOn] at hlists
    rw [variableOf, variableOf, String.toList_injective hlists]

/-- Names without an underscore are their own parts. -/
theorem parts_of_not_mem {trail : List String} (h : ∀ name ∈ trail, '_' ∉ name.toList) :
    parts trail = trail.map String.toList := by
  unfold parts
  rw [List.map_eq_flatMap]
  apply List.flatMap_congr
  intro name hname
  exact List.splitOn_eq_singleton (h name hname)

/-! ## What statements bind and read -/

/-- The parameter of an instance that an expression reads. -/
def Expr.access? : Expr → Option Access
  | .own a => some a
  | .forwarded a => some a
  | _ => none

/-- What the value of an entry reads. -/
def Entry.accesses (e : Entry) : List Access := e.terms.filterMap Expr.access?

/-- What a statement reads. -/
def Statement.accesses : Statement → List Access
  | .construct _ _ _ keywords => keywords.flatMap Entry.accesses
  | .store _ _ e => e.accesses

/-- The variable that a statement binds. -/
def Statement.binds? : Statement → Option String
  | .construct _ path _ _ => some path
  | .store _ _ _ => none

theorem filterMap_binds_stores (i : NodeId) (path : String) (es : List Entry) :
    (es.map (.store i path)).filterMap Statement.binds? = [] := by
  simp [List.filterMap_eq_nil_iff, Statement.binds?]

/-- The construction of an instance binds its variable, and no other. -/
theorem Overrides.binds_construction (o : Overrides) (style : Options.Style) (className : String) :
    (o.construction style className).filterMap Statement.binds? = [o.path] := by
  cases style with
  | targeted =>
    show o.path :: List.filterMap Statement.binds? (List.map _ _) = _
    rw [filterMap_binds_stores]
  | bulkMerge =>
    show o.path :: List.filterMap Statement.binds? (List.map _ _) = _
    rw [filterMap_binds_stores]

/-- The construction of an instance reads what its values read. -/
theorem Overrides.accesses_construction {o : Overrides} {style : Options.Style}
    {className : String} {s : Statement} (hs : s ∈ o.construction style className) {a : Access}
    (ha : a ∈ s.accesses) : ∃ e ∈ o.entries, a ∈ e.accesses := by
  cases style with
  | targeted =>
    rw [construction_targeted] at hs
    rcases List.mem_cons.mp hs with rfl | hs
    · simp [Statement.accesses] at ha
    · obtain ⟨e, he, rfl⟩ := List.mem_map.mp hs
      refine ⟨e, ?_, ha⟩
      rcases List.mem_append.mp he with he | he
      · exact List.mem_of_mem_filter he
      · exact List.mem_of_mem_filter he
  | bulkMerge =>
    unfold Overrides.construction at hs
    rw [List.partition_eq_filter_filter] at hs
    rcases List.mem_cons.mp hs with rfl | hs
    · obtain ⟨e, he, ha⟩ := List.mem_flatMap.mp ha
      exact ⟨e, mem_of_mem_distinct (List.mem_of_mem_filter he), ha⟩
    · obtain ⟨e, he, rfl⟩ := List.mem_map.mp hs
      exact ⟨e, mem_of_mem_distinct (List.mem_of_mem_filter he), ha⟩

end Script

namespace Program

open Script
open Model (Faithful)

variable {m : Model} {p : Program}

/-! ## Accepted models -/

/-- The nodes below the root are those of the places. -/
theorem nodesOf_eq (hm : Faithful m p) : p.nodesOf = p.assembly.nodes.toList := by
  simp [nodesOf, hm.root, hm.order]

/-- Places and nodes side by side. -/
theorem forall₂_nodesOf (hm : Faithful m p) :
    List.Forall₂ (fun x n => x ∈ m.places ∧ n ∈ p.nodesOf ∧ Model.Place.Denotes p.catalog x n)
      m.places p.nodesOf :=
  Lookup.forall₂_mem (nodesOf_eq hm ▸ hm.instances)

theorem path?_place (hm : Faithful m p) {x : Model.Place} (hx : x ∈ m.places) :
    p.assembly.path? x.id = some (variableOf x.trail) := by
  simp [Assembly.path?, hm.names x hx, variableOf]

theorem pathOf_place (hm : Faithful m p) {x : Model.Place} (hx : x ∈ m.places) :
    p.pathOf x.id = variableOf x.trail := by
  simp [pathOf, path?_place hm hx]

/-- Nodes and their variables. -/
theorem map_pathOf (hm : Faithful m p) :
    p.nodesOf.map (fun n => p.pathOf n.id) = m.places.map fun x => variableOf x.trail := by
  symm
  apply Lookup.map_eq_of_forall₂ (forall₂_nodesOf hm)
  intro x n ⟨hx, _, hn⟩
  rw [hn.id, pathOf_place hm hx]

/-- The value of a slot reads the instance itself or the one around it. -/
theorem accesses_entryAt {n : Assembly.Node} {q : Catalog.Parameter} {a : Access}
    (ha : a ∈ (p.entryAt n q).accesses) :
    (a.node = n.id ∨ n.parent = some a.node) ∧ a.path = p.pathOf a.node := by
  obtain ⟨t, ht, hta⟩ := List.mem_filterMap.mp ha
  unfold entryAt resolutionAt at ht
  cases hx : Assembly.lastSetting? q.id n.assignments with
  | some x =>
    rw [hx] at ht
    obtain ⟨v, _, rfl⟩ := List.mem_map.mp ht
    cases v with
    | constant k => simp [outerExpr, Expr.access?] at hta
    | param id =>
      cases hta
      cases hparent : n.parent with
      | none => exact ⟨.inl rfl, rfl⟩
      | some outer => exact ⟨.inr rfl, rfl⟩
  | none =>
    rw [hx] at ht
    obtain ⟨v, _, rfl⟩ := List.mem_map.mp ht
    cases v with
    | constant k => simp [ownExpr, Expr.access?] at hta
    | param id =>
      cases hta
      exact ⟨.inl rfl, rfl⟩

/-- What the construction of the instances reads is an instance by its variable. -/
theorem exists_place_of_access (hm : Faithful m p) (hp : p.Closed) {s : Statement}
    (hs : s ∈ p.nodesOf.flatMap p.statementsOf) {a : Access} (ha : a ∈ s.accesses) :
    ∃ x ∈ m.places, x.id = a.node ∧ variableOf x.trail = a.path := by
  obtain ⟨n, hn, hs⟩ := List.mem_flatMap.mp hs
  obtain ⟨e, he, ha⟩ := Overrides.accesses_construction hs ha
  obtain ⟨q, _, hq⟩ := List.mem_filterMap.mp he
  obtain ⟨rfl, _⟩ := slotEntry?_eq_some hq
  obtain ⟨hnode, hpath⟩ := accesses_entryAt ha
  -- the node that is read is there
  obtain ⟨n', hn', hid⟩ : ∃ n' ∈ p.nodesOf, n'.id = a.node := by
    rcases hnode with hnode | hnode
    · exact ⟨n, hn, hnode.symm⟩
    · obtain ⟨outer, houter, _⟩ := hp.assembly.parent (hp.found hn) hnode
      refine ⟨outer, ?_, hp.assembly.id houter⟩
      rw [nodesOf_eq hm, Array.mem_toList_iff]
      exact Array.mem_of_getElem? houter
  obtain ⟨x, hx, _, _, hdenotes⟩ := Lookup.exists_mem_of_forall₂ (forall₂_nodesOf hm).flip hn'
  have hxid : x.id = a.node := hdenotes.id.symm.trans hid
  exact ⟨x, hx, hxid, by rw [hpath, ← hxid, pathOf_place hm hx]⟩

theorem trail_ne_nil {x : Model.Place} (hx : x ∈ m.places) : x.trail ≠ [] := by
  intro hnil
  have hprefix := Model.trail_places _ _ _ _ m.main x hx
  rw [hnil] at hprefix
  simpa using hprefix.length_le

/-- Instances have different variables exactly if their names have different parts. -/
theorem nodup_variables_iff :
    (m.places.map fun x => variableOf x.trail).Nodup ↔
      (m.places.map fun x => parts x.trail).Nodup := by
  rw [List.Nodup, List.pairwise_map, List.Nodup, List.pairwise_map]
  apply List.Pairwise.iff_of_mem
  intro x y hx hy
  exact not_congr (variableOf_eq_iff (trail_ne_nil hx) (trail_ne_nil hy))

/-- Names without an underscore are their own parts, so no two instances have the same. -/
theorem nodup_parts (hm : Faithful m p)
    (hfree : ∀ x ∈ m.places, ∀ name ∈ x.trail, '_' ∉ name.toList) :
    (m.places.map fun x => parts x.trail).Nodup := by
  have hparts : (m.places.map fun x => parts x.trail) =
      (m.places.map (·.trail)).map (List.map String.toList) := by
    rw [List.map_map]
    apply List.map_congr_left
    intro x hx
    exact parts_of_not_mem (hfree x hx)
  rw [hparts]
  exact hm.distinct.map (List.map_injective_iff.mpr fun _ _ => String.toList_injective)

/-- The construction of the instances binds their variables, in order. -/
theorem binds_statementsOf (hm : Faithful m p) :
    (p.nodesOf.flatMap p.statementsOf).filterMap Statement.binds? =
      m.places.map fun x => variableOf x.trail := by
  rw [List.filterMap_flatMap, ← map_pathOf hm, List.map_eq_flatMap]
  apply List.flatMap_congr
  intro n _
  exact Overrides.binds_construction _ _ _

/-- The object of all values has a member for each instance exactly if their names have different
    parts. -/
theorem length_sortedMembers_iff (hm : Faithful m p) :
    (Json.sortedMembers ((p.nodesOf.map p.overridesOf).map overridesTable)).length =
        m.places.length ↔
      (m.places.map fun x => parts x.trail).Nodup := by
  have hkeys : Json.keys ((p.nodesOf.map p.overridesOf).map overridesTable) =
      m.places.map fun x => variableOf x.trail := by
    rw [← map_pathOf hm, Json.keys, List.map_map, List.map_map]
    rfl
  rw [← nodup_variables_iff, ← hkeys, ← Json.length_sortedMembers_iff, List.length_map,
    List.length_map, (forall₂_nodesOf hm).length_eq]

/-- Two instances of an accepted model share a variable exactly if the names from the root down to
    them have the same parts between underscores, so none do where no name has an underscore.  Where
    none do, every construction statement binds another variable, every read is of one instance
    alone, and the object of all values has one member for each instance. -/
theorem variables_distinct_iff (h : m.elaborate = some (.ok p)) :
    (∀ x ∈ m.places, p.assembly.path? x.id = some (variableOf x.trail)) ∧
    ((m.places.map fun x => variableOf x.trail).Nodup ↔
      (m.places.map fun x => parts x.trail).Nodup) ∧
    ((∀ x ∈ m.places, ∀ name ∈ x.trail, '_' ∉ name.toList) →
      (m.places.map fun x => parts x.trail).Nodup) ∧
    (∀ header, ∃ module statements ds, (p.emit header).run = some (module, ds) ∧
      module.construction = some statements ∧
      statements.filterMap Statement.binds? = m.places.map (fun x => variableOf x.trail) ∧
      ((m.places.map fun x => parts x.trail).Nodup →
        ∀ s ∈ statements, ∀ a ∈ s.accesses, ∃ x ∈ m.places, x.id = a.node ∧
          variableOf x.trail = a.path ∧ ∀ y ∈ m.places, variableOf y.trail = a.path → y = x)) ∧
    ∃ maps ds, (p.overridesBelow ⟨0⟩).run = some (maps, ds) ∧
      p.overridesJson.run = some (Json.writeTables (maps.map overridesTable), ds) ∧
      ((Json.sortedMembers (maps.map overridesTable)).length = m.places.length ↔
        (m.places.map fun x => parts x.trail).Nodup) := by
  have hm := Model.faithful_of_quiet (Model.bindAll_quiet h)
  have hp := closed_of_loaded (Model.loaded_of_elaborate h).1
  have hmaps := overridesBelow_run hp hm.root
  refine ⟨fun x hx => path?_place hm hx, nodup_variables_iff, nodup_parts hm, ?_, _, _, hmaps, ?_,
    length_sortedMembers_iff hm⟩
  · intro header
    refine ⟨_, _, _, emit_run hp header, by rw [moduleOf, hm.root]; rfl, binds_statementsOf hm, ?_⟩
    intro hdistinct s hs a ha
    obtain ⟨x, hx, hid, hpath⟩ := exists_place_of_access hm hp hs ha
    refine ⟨x, hx, hid, hpath, fun y hy hpath' => ?_⟩
    exact List.inj_on_of_nodup_map (nodup_variables_iff.mpr hdistinct) hy hx
      (hpath'.trans hpath.symm)
  · unfold overridesJson
    rw [hm.root, Collect.run_bind, hmaps]
    simp

open Model (nesting nestingProgram)

theorem variables_nesting :
    nesting.elaborate = some (.ok nestingProgram) ∧
      nestingProgram.assembly.path? ⟨1⟩ = some "main_b_lf" ∧
      ∃ maps ds, (nestingProgram.overridesBelow ⟨0⟩).run = some (maps, ds) ∧
        (Json.sortedMembers (maps.map overridesTable)).length = 2 := by
  have hload := Model.elaborate_nesting
  obtain ⟨hpaths, _, hfree, _, maps, ds, hmaps, _, hlength⟩ := variables_distinct_iff hload
  rw [Model.places_nesting] at hpaths hfree hlength
  refine ⟨hload, hpaths _ (List.mem_cons_of_mem _ List.mem_cons_self), maps, ds, hmaps, ?_⟩
  refine hlength.mpr (hfree ?_)
  simp only [List.forall_mem_cons]
  decide

/-- An instance whose name is that of another one and of one inside it. -/
def colliding : Model where
  options := .standard
  reactors := [⟨"A", [], [], .nowhere⟩]
  main := ⟨"main", "A", [],
    [⟨"a", "A", [], [⟨"b", "A", [], [], .nowhere⟩], .nowhere⟩, ⟨"a_b", "A", [], [], .nowhere⟩],
    .nowhere⟩

/-- The program of `colliding`. -/
def collidingProgram : Program where
  catalog := { reactors := #[⟨⟨0⟩, "A", [], [], .nowhere⟩] }
  assembly :=
    { nodes := #[⟨⟨0⟩, "main", ⟨0⟩, none, [⟨1⟩, ⟨3⟩], [], .nowhere⟩,
        ⟨⟨1⟩, "a", ⟨0⟩, some ⟨0⟩, [⟨2⟩], [], .nowhere⟩,
        ⟨⟨2⟩, "b", ⟨0⟩, some ⟨1⟩, [], [], .nowhere⟩,
        ⟨⟨3⟩, "a_b", ⟨0⟩, some ⟨0⟩, [], [], .nowhere⟩] }

/-- Two instances have one variable: it is bound twice, and the object of all values has one member
    for both. -/
theorem variables_collide :
    colliding.elaborate = some (.ok collidingProgram) ∧
      collidingProgram.assembly.path? ⟨2⟩ = some "main_a_b_lf" ∧
      collidingProgram.assembly.path? ⟨3⟩ = some "main_a_b_lf" ∧
      ∃ maps, (collidingProgram.overridesBelow ⟨0⟩).run = some (maps, []) ∧
        maps.map (·.path) = ["main_lf", "main_a_lf", "main_a_b_lf", "main_a_b_lf"] ∧
        (Json.sortedMembers (maps.map overridesTable)).map Prod.fst =
          ["main_a_b_lf", "main_a_lf", "main_lf"] := by
  have hload : colliding.elaborate = some (.ok collidingProgram) := rfl
  have hm := Model.faithful_of_quiet (Model.bindAll_quiet hload)
  have hp := closed_of_loaded (Model.loaded_of_elaborate hload).1
  have hpath : ∀ x ∈ colliding.places,
      collidingProgram.assembly.path? x.id = some (variableOf x.trail) :=
    fun x hx => path?_place hm hx
  have hnodes : collidingProgram.nodesOf = collidingProgram.assembly.nodes.toList :=
    nodesOf_eq hm
  have hvariables : (collidingProgram.nodesOf.map fun n => collidingProgram.pathOf n.id) =
      ["main_lf", "main_a_lf", "main_a_b_lf", "main_a_b_lf"] := map_pathOf hm
  have hslots : collidingProgram.slotsReports = [] := by
    unfold slotsReports
    rw [hnodes]
    rfl
  have hmaps := overridesBelow_run hp hm.root
  rw [hslots] at hmaps
  -- the reactor has no parameters, so the instances have no values
  have htables : (collidingProgram.nodesOf.map collidingProgram.overridesOf).map overridesTable =
      (collidingProgram.nodesOf.map fun n => collidingProgram.pathOf n.id).map
        fun v => (v, []) := by
    rw [hnodes]
    rfl
  refine ⟨hload, ?_, ?_, _, hmaps, ?_, ?_⟩
  · exact hpath ⟨_, ⟨2⟩, some ⟨1⟩, some "A", ["main", "a", "b"], []⟩
      (.tail _ (.tail _ (.head _)))
  · exact hpath ⟨_, ⟨3⟩, some ⟨0⟩, some "A", ["main", "a_b"], []⟩
      (.tail _ (.tail _ (.tail _ (.head _))))
  · rw [List.map_map]
    exact hvariables
  · rw [htables, hvariables]
    decide

end Program

end Reactors
