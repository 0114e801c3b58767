import Reactors.Proofs.Json.Documents
import Reactors.Proofs.Json.Records

/-! # What is written is read back

    The writer follows the grammar, whatever characters are in the strings.  So the reader finds the
    objects that were written, with the value that was put in last under each key.
-/

namespace Reactors.Json

variable {α : Type}

/-! ## Strings -/

theorem escaped_flatMap_stringChar (s : List Char) : Escaped s (s.flatMap stringChar) := by
  induction s with
  | nil => exact .nil
  | cons c s ih =>
    rw [List.flatMap_cons]
    unfold stringChar
    -- each branch of the writer is a rule of the grammar
    split
    · exact .letter (l := '"') (by decide) ih
    · exact .letter (l := '\\') (by decide) ih
    · exact .letter (l := 'b') (by decide) ih
    · exact .letter (l := 'f') (by decide) ih
    · exact .letter (l := 'n') (by decide) ih
    · exact .letter (l := 'r') (by decide) ih
    · exact .letter (l := 't') (by decide) ih
    · next hquote hslash _ _ _ _ _ =>
      split
      · next hcontrol => exact .unit (hexUnit_of_lt hcontrol) ih
      · next hcode => exact .plain hquote hslash (Nat.le_of_not_lt hcode) ih

theorem stringText_writes (s : String) : StringText s (stringText s) :=
  ⟨_, escaped_flatMap_stringChar s.toList, rfl⟩

/-! ## Objects -/

theorem blank_line (level : Nat) : Blank ('\n' :: margin level) := by
  intro c hc
  rcases List.mem_cons.mp hc with rfl | hc
  · decide
  · obtain rfl := List.eq_of_mem_replicate hc
    decide

/-- A member on a line of its own. -/
def memberLine (level : Nat) (value : α → List Char) (m : String × α) : List Char :=
  ['\n'] ++ margin (level + 1) ++ stringText m.1 ++ [':', ' '] ++ value m.2

/-- The line of a member in front of the rest of an object. -/
theorem SpellsMembers.onLine (first : Bool) {level : Nat} {value : α → List Char}
    {m : String × α} {r : Reading} {tail : Members} {rest : List Char}
    (hvalue : Spells r (value m.2)) (hrest : SpellsMembers false tail rest) :
    SpellsMembers first (.cons m.1 r tail)
      (separator first ++ (memberLine level value m ++ rest)) := by
  have hgap : Gap first (separator first ++ '\n' :: margin (level + 1)) := by
    cases first with
    | false => exact @Gap.further [] _ blank_nil (blank_line _)
    | true => exact .first (blank_line _)
  have hspace : Blank [' '] := by simp [Blank]
  have hspells := SpellsMembers.cons hgap (stringText_writes m.1) blank_nil hspace hvalue hrest
  simpa [memberLine] using hspells

/-- The members behind the first one, each on its line, and the closing brace. -/
theorem spellsMembers_lines (level : Nat) {value : α → List Char} {reading : α → Reading}
    (h : ∀ a, Spells (reading a) (value a)) (members : List (String × α)) :
    SpellsMembers false (.ofList (members.map fun m => (m.1, reading m.2)))
      (members.flatMap (fun m => ',' :: memberLine level value m) ++
        ('\n' :: margin level ++ ['\x7d'])) := by
  induction members with
  | nil => exact .closed (blank_line level)
  | cons m members ih =>
    rw [List.flatMap_cons, List.append_assoc]
    exact .onLine false (h m.2) ih

/-- An object is written as the object of what its values are written as. -/
theorem spells_objectText (level : Nat) {value : α → List Char} {reading : α → Reading}
    (h : ∀ a, Spells (reading a) (value a)) (members : List (String × α)) :
    Spells (.object (.ofList (members.map fun m => (m.1, reading m.2))))
      (objectText level value members) := by
  -- the empty object has no lines, and the first line of any other one no comma in front
  cases members with
  | nil => exact .object (.closed blank_nil)
  | cons m members =>
    have htext : objectText level value (m :: members) = '\x7b' :: (separator true ++
        (memberLine level value m ++ (members.flatMap (fun m => ',' :: memberLine level value m) ++
          ('\n' :: margin level ++ ['\x7d'])))) := by
      simp [objectText, memberLine, separator]
    rw [htext]
    exact .object (.onLine true (h m.2) (spellsMembers_lines level h members))

/-! ## Tables -/

/-- The object of some members, of which the last one of each key counts. -/
def objectOf (reading : α → Reading) (members : List (String × α)) : Members :=
  .ofList ((sortedMembers members).map fun m => (m.1, reading m.2))

/-- Under a key stands the value that was put in last. -/
theorem valuesOf_objectOf (reading : α → Reading) (members : List (String × α)) (key : String) :
    (objectOf reading members).valuesOf key =
      ((members.reverse.find? fun m => m.1 == key).map fun m => reading m.2).toList := by
  have hkeys : keys ((sortedMembers members).map fun m => (m.1, reading m.2)) =
      keys (sortedMembers members) := by
    simp [keys]
  unfold objectOf
  -- the sorted members have no key twice, so what is found there is all there is
  rw [← find?_sortedMembers]
  cases hfind : (sortedMembers members).find? fun m => m.1 == key with
  | none =>
    have hfree : key ∉ keys (sortedMembers members) := by
      intro hkey
      obtain ⟨m, hm, hname⟩ := List.mem_map.mp hkey
      exact List.find?_eq_none.mp hfind m hm (by simpa using hname)
    exact Members.valuesOf_ofList_of_notMem (hkeys ▸ hfree)
  | some m =>
    have hmem := List.mem_of_find?_eq_some hfind
    obtain rfl : m.1 = key := by simpa using List.find?_some hfind
    exact Members.valuesOf_ofList (hkeys ▸ nodup_keys_sortedMembers members)
      (List.mem_map.mpr ⟨m, hmem, rfl⟩)

/-- An object of strings. -/
def stringsOf (members : List (String × String)) : Reading := .object (objectOf .string members)

/-- An object of objects of strings. -/
def tablesOf (members : List (String × List (String × String))) : Members :=
  objectOf stringsOf members

theorem spells_strings (level : Nat) (members : List (String × String)) :
    Spells (stringsOf members) (objectText level stringText (sortedMembers members)) :=
  spells_objectText level (fun s => .string (stringText_writes s)) _

theorem spells_tables (members : List (String × List (String × String))) :
    Spells (.object (tablesOf members)) (writeTables members).toList := by
  unfold writeTables
  rw [String.toList_ofList]
  exact spells_objectText 0 (spells_strings 1) _

theorem depth_strings_le (members : List (String × String)) : (stringsOf members).depth ≤ 1 := by
  rw [stringsOf, Reading.depth, Nat.add_le_add_iff_right, objectOf, Members.depth_ofList_le]
  intro e he
  obtain ⟨m, _, rfl⟩ := List.mem_map.mp he
  exact Nat.le_refl _

theorem depth_tables_le (members : List (String × List (String × String))) :
    (Reading.object (tablesOf members)).depth ≤ 2 := by
  rw [Reading.depth, Nat.add_le_add_iff_right, tablesOf, objectOf, Members.depth_ofList_le]
  intro e he
  obtain ⟨m, _, rfl⟩ := List.mem_map.mp he
  exact depth_strings_le m.2

/-- The text of an object of objects of strings is a document of its own. -/
theorem document_writeTables (members : List (String × List (String × String))) :
    Document (.object (tablesOf members)) (writeTables members) :=
  ⟨[], _, [], blank_nil, spells_tables members, blank_nil, by simp⟩

/-- It is read as what was written. -/
theorem read_writeTables (members : List (String × List (String × String))) :
    read (writeTables members) = (.object (tablesOf members), some []) := by
  have hdepth : (Reading.object (tablesOf members)).depth ≤ maxDepth :=
    (depth_tables_le members).trans (by decide)
  have hread := read_ofList (spells_tables members) hdepth
  rwa [String.ofList_toList] at hread

end Reactors.Json
