import Reactors.Proofs.Json.Tables
import Reactors.Proofs.Program.Built
import Reactors.Proofs.Script.Merging

/-! # The values of all instances can be read back

    The text of all values is a JSON document.  What is read from it has a member for each path, the
    table of the last instance in pre-order that has the path, and the table has the value of each
    name that the instance has an entry of, whatever characters the names and the values have.
-/

namespace Reactors

namespace Script

/-- What an object says about the values of an instance. -/
structure Overrides.Listed (o : Overrides) (table : Json.Members) : Prop where
  /-- The names of the entries are the keys. -/
  names : ∀ name, table.valuesOf name ≠ [] ↔ name ∈ o.entries.map (·.name)
  /-- Under each name stands one string, the value under the name. -/
  values : ∀ name ∈ o.entries.map (·.name),
    ∃ text, o.get? name = some text ∧ table.valuesOf name = [.string text]

/-- What an object says about the values of several instances, in order. -/
structure Tabled (maps : List Overrides) (members : Json.Members) : Prop where
  /-- The paths of the instances are the keys. -/
  paths : ∀ path, members.valuesOf path ≠ [] ↔ path ∈ maps.map (·.path)
  /-- Under each path stands one object, that of the last instance which has the path. -/
  last : ∀ before o after, maps = before ++ o :: after → (∀ x ∈ after, x.path ≠ o.path) →
    ∃ table, members.valuesOf o.path = [.object table] ∧ o.Listed table

/-! ## One instance -/

theorem Overrides.exists_get? {o : Overrides} {name : String}
    (h : name ∈ o.entries.map (·.name)) : ∃ text, o.get? name = some text :=
  Option.ne_none_iff_exists'.mp fun hnone => get?_eq_none_iff.mp hnone h

/-- Of the entries that count, the one of a name has the value under the name. -/
theorem Overrides.find?_distinct (o : Overrides) (name : String) :
    ((o.distinct.map fun e => (e.name, e.text)).reverse.find? fun m => m.1 == name).map Prod.snd =
      o.get? name := by
  -- an entry that counts is the last one of its name, and every name of an entry has one
  cases hfind : (o.distinct.map fun e => (e.name, e.text)).reverse.find? fun m => m.1 == name with
  | none =>
    have hfree : ∀ e ∈ o.distinct, e.name ≠ name := by simpa using hfind
    have hname : name ∉ o.entries.map (·.name) := by
      intro hname
      obtain ⟨e, he, hee⟩ := List.mem_map.mp (mem_names_distinct.mpr hname)
      exact hfree e he hee
    exact (get?_eq_none_iff.mpr hname).symm
  | some m =>
    obtain ⟨e, he, rfl⟩ : ∃ e ∈ o.distinct, (e.name, e.text) = m := by
      simpa using List.mem_of_find?_eq_some hfind
    obtain rfl : e.name = name := by simpa using List.find?_some hfind
    exact (get?_of_mem_distinct he).symm

theorem Overrides.listed (o : Overrides) :
    o.Listed (Json.objectOf .string (Program.overridesTable o).2) := by
  have hvalues : ∀ name,
      (Json.objectOf .string (Program.overridesTable o).2).valuesOf name =
        ((o.get? name).map Json.Reading.string).toList := by
    intro name
    rw [Json.valuesOf_objectOf, ← find?_distinct, Option.map_map]
    rfl
  constructor
  · intro name
    rw [hvalues, Ne, Option.toList_eq_nil_iff, Option.map_eq_none_iff, get?_eq_none_iff, not_not]
  · intro name hname
    obtain ⟨text, htext⟩ := exists_get? hname
    exact ⟨text, htext, by rw [hvalues, htext]; rfl⟩

/-! ## All instances -/

theorem tabled (maps : List Overrides) :
    Tabled maps (Json.tablesOf (maps.map Program.overridesTable)) := by
  have hvalues : ∀ path, (Json.tablesOf (maps.map Program.overridesTable)).valuesOf path =
      ((maps.reverse.find? fun o => o.path == path).map fun o =>
        Json.stringsOf (Program.overridesTable o).2).toList := by
    intro path
    rw [Json.tablesOf, Json.valuesOf_objectOf, ← List.map_reverse, List.find?_map, Option.map_map]
    rfl
  constructor
  · intro path
    rw [hvalues]
    simp
  · intro before o after hmaps hlast
    -- the search from the back passes by what comes after, and ends here
    have hafter : after.reverse.find? (fun x => x.path == o.path) = none := by
      simpa using hlast
    refine ⟨_, ?_, o.listed⟩
    rw [hvalues, hmaps, List.reverse_append, List.reverse_cons, List.append_assoc,
      List.find?_append, hafter]
    simp [Json.stringsOf]

end Script

namespace Program

open Script

/-- The values `maps` are those of the instances `nodes`, which are the root and everything inside
    it in pre-order. -/
structure Mapped (p : Program) (nodes : List Assembly.Node) (maps : List Overrides)
    (reports : List Diagnostic) : Prop where
  /-- The walk from the root. -/
  walk : ∀ root, p.assembly.root? = some root →
    p.assembly.Preorder root nodes ∧ p.assembly.Visits [root] (nodes.map (·.id)) ∧
      (p.overridesBelow root).run = some (maps, reports)
  /-- Without a root there are no instances. -/
  rootless : p.assembly.root? = none → nodes = [] ∧ maps = [] ∧ reports = []
  each : List.Forall₂ (fun n o => o.node = n.id ∧ p.assembly.path? n.id = some o.path) nodes maps

variable {p : Program}

theorem mapped (hp : p.Closed) :
    p.Mapped p.nodesOf (p.nodesOf.map p.overridesOf) p.slotsReports where
  walk := by
    intro root hroot
    obtain ⟨hwalk, hpreorder⟩ := hp.preorder hroot
    obtain ⟨ids, hvisits, hids, _⟩ := Assembly.visit?_eq_some_iff.mp hwalk
    have hmap : p.nodesOf.map (·.id) = ids := hp.assembly.ids_of_mapM hids
    exact ⟨hpreorder, hmap ▸ hvisits, overridesBelow_run hp hroot⟩
  rootless := by
    intro hroot
    have hnone : p.nodesOf = [] := by simp [nodesOf, hroot]
    exact ⟨hnone, by rw [hnone]; rfl, by rw [slotsReports, hnone]; rfl⟩
  each := by
    rw [List.forall₂_map_right_iff, List.forall₂_same]
    exact fun n hn => ⟨rfl, hp.path? (Assembly.hasNode_of_some (hp.found hn))⟩

/-- Of a program with identities in range, what is read from the text of all values has the paths of
    the instances below the root as its keys, and under each path the values of the last instance in
    pre-order that has it. -/
theorem overrides_read_back (hmade : p.Made) (hrange : p.InRange) :
    ∃ nodes maps reports text members,
      p.Mapped nodes maps reports ∧ p.overridesJson.run = some (text, reports) ∧
      Json.Document (.object members) text ∧ Json.read text = (.object members, some []) ∧
      Tabled maps members := by
  have hp := hmade.closed hrange
  exact ⟨_, _, _, _, _, mapped hp, overridesJson_eq hp, Json.document_writeTables _,
    Json.read_writeTables _, tabled _⟩

/-- A history of four instances, two of which have one path.  A reactor has two parameters of one
    name, and quotes, backslashes and control characters are in names and in values. -/
def quotedHistory : List Edit :=
  [.declare "A" .nowhere,
   .addParameter ⟨0⟩ "n\"" none [.constant (.int 1)] .nowhere,
   .addParameter ⟨0⟩ "\\\n" none [.constant (.code "\x01\"é")] .nowhere,
   .addParameter ⟨0⟩ "n\"" none [.constant (.code "\\\t")] .nowhere,
   .declare "B" .nowhere,
   .addRoot "\x1f" ⟨1⟩ .nowhere,
   .addChild ⟨0⟩ "a" ⟨1⟩ [] .nowhere,
   .addChild ⟨1⟩ "b" ⟨1⟩ [] .nowhere,
   .addChild ⟨0⟩ "a_b" ⟨0⟩ [] .nowhere]

/-- The program that it builds. -/
def quotedProgram : Program := (edits? {} quotedHistory).getD {}

theorem built_quoted : Built quotedHistory quotedProgram := built_getD (by decide)

/-- Its last instance. -/
def quotedLast : Assembly.Node := ⟨⟨3⟩, "a_b", ⟨0⟩, some ⟨0⟩, [], [], .nowhere⟩

theorem quoted_paths : quotedProgram.assembly.path? ⟨2⟩ = some "\x1f_a_b_lf" ∧
    quotedProgram.assembly.path? ⟨3⟩ = some "\x1f_a_b_lf" := by
  have htop : quotedProgram.assembly.node? ⟨0⟩ =
      some ⟨⟨0⟩, "\x1f", ⟨1⟩, none, [⟨1⟩, ⟨3⟩], [], .nowhere⟩ := rfl
  have hroot : quotedProgram.assembly.names? ⟨0⟩ = some ["\x1f"] := Assembly.names?_root htop rfl
  have houter : quotedProgram.assembly.names? ⟨1⟩ = some ["\x1f", "a"] := by
    rw [Assembly.names?_child (p := ⟨0⟩) rfl rfl (by decide), hroot]
    rfl
  have hinner : quotedProgram.assembly.names? ⟨2⟩ = some ["\x1f", "a", "b"] := by
    rw [Assembly.names?_child (p := ⟨1⟩) rfl rfl (by decide), houter]
    rfl
  have hlast : quotedProgram.assembly.names? ⟨3⟩ = some ["\x1f", "a_b"] := by
    rw [Assembly.names?_child (p := ⟨0⟩) rfl rfl (by decide), hroot]
    rfl
  constructor
  · rw [Assembly.path?, hinner]
    rfl
  · rw [Assembly.path?, hlast]
    rfl

/-- Of two instances that have one path the latter is under it, with both of its names. -/
theorem overrides_read_back_quoted :
    quotedProgram.Made ∧ quotedProgram.InRange ∧
      quotedProgram.assembly.path? ⟨2⟩ = some "\x1f_a_b_lf" ∧
      quotedProgram.assembly.path? ⟨3⟩ = some "\x1f_a_b_lf" ∧
      ∃ nodes maps reports text members,
        quotedProgram.Mapped nodes maps reports ∧
        quotedProgram.overridesJson.run = some (text, reports) ∧
        Json.Document (.object members) text ∧ Json.read text = (.object members, some []) ∧
        Tabled maps members ∧
        ∃ table, members.valuesOf "\x1f_a_b_lf" = [.object table] ∧
          table.valuesOf "n\"" = [.string "\\\t"] ∧
          table.valuesOf "\\\n" = [.string "\x01\"é"] := by
  have hmade := built_quoted.made
  have hclosed := built_quoted.closed
  obtain ⟨hinner, hlast⟩ := quoted_paths
  obtain ⟨nodes, maps, reports, text, members, hmapped, hrun, hdocument, hread, htabled⟩ :=
    overrides_read_back hmade hclosed.inRange
  refine ⟨hmade, hclosed.inRange, hinner, hlast, nodes, maps, reports, text, members,
    hmapped, hrun, hdocument, hread, htabled, ?_⟩
  obtain ⟨_, _, hmaps⟩ := hmapped.walk ⟨0⟩ (by decide)
  rw [overridesBelow_run hclosed (by decide)] at hmaps
  cases hmaps
  -- the walk from the root is the whole arena, and the last instance in it has the path
  have hwalk : quotedProgram.nodesOf =
      quotedProgram.assembly.nodes.toList.take 3 ++ [quotedLast] := by decide
  have hpath : (quotedProgram.overridesOf quotedLast).path = "\x1f_a_b_lf" := by
    show (quotedProgram.assembly.path? ⟨3⟩).getD "" = _
    rw [hlast]
    rfl
  obtain ⟨table, htable, hlisted⟩ := htabled.last
    ((quotedProgram.assembly.nodes.toList.take 3).map quotedProgram.overridesOf)
    (quotedProgram.overridesOf quotedLast) [] (by rw [hwalk, List.map_append]; rfl) (by simp)
  obtain ⟨_, hfirst, hn⟩ := hlisted.values "n\"" (by decide)
  obtain ⟨_, hsecond, hbackslash⟩ := hlisted.values "\\\n" (by decide)
  cases hfirst
  cases hsecond
  exact ⟨table, hpath ▸ htable, hn, hbackslash⟩

end Program

end Reactors
