import Reactors.Proofs.Program.Closed
import Reactors.Proofs.Script.Emission
import Reactors.Proofs.Script.Parts
import Reactors.Proofs.Text.Lines

/-! # How classes are indented

    Margins are put in front of the lines of a text, so what stands in it cannot leave its level by a
    line feed.  It can by a carriage return without one, which ends no line here but does so in the
    target language.  The name of a class is written as it is, and a margin of no spaces is none: then
    the constructor stands beside its class.
-/

namespace Reactors

namespace Script

/-! ## Levels -/

/-- The pieces of a text between the characters that end a line. -/
def linesAt (ends : Char → Bool) (cs : List Char) : List (List Char) := cs.splitOnP ends

theorem linesAt_ne_nil (ends : Char → Bool) (cs : List Char) : linesAt ends cs ≠ [] :=
  List.splitOnP_ne_nil ends cs

/-- Line feeds end lines. -/
def lineFeed (c : Char) : Bool := c = '\n'

/-- Line feeds and carriage returns end lines.  Between the two of a pair there is an empty line. -/
def lineBreak (c : Char) : Bool := c = '\n' || c = '\r'

/-- Line feeds end lines, and but for them carriage returns at most. -/
structure EndsLines (ends : Char → Bool) : Prop where
  feed : ends '\n' = true
  only : ∀ c, ends c = true → c = '\n' ∨ c = '\r'

theorem endsLines_lineFeed : EndsLines lineFeed := ⟨rfl, by simp [lineFeed]⟩

theorem endsLines_lineBreak : EndsLines lineBreak := ⟨rfl, by simp [lineBreak]⟩

theorem EndsLines.inner {ends : Char → Bool} (h : EndsLines ends) {c : Char} (hfeed : c ≠ '\n')
    (hreturn : c ≠ '\r') : ends c = false := by
  by_contra hends
  rcases h.only c (by simpa using hends) with heq | heq
  · exact hfeed heq
  · exact hreturn heq

/-- The number of spaces that a line starts with. -/
def leading (l : List Char) : Nat := (l.takeWhile (· = ' ')).length

/-- A line has `n` spaces in front, or nothing but spaces, tabs and form feeds. -/
def Deep (n : Nat) (l : List Char) : Prop :=
  (∀ c ∈ l, c ∈ [' ', '\t', '\x0c']) ∨ n ≤ leading l

theorem deep_nil (n : Nat) : Deep n [] := .inl (by simp)

theorem Deep.mono {n k : Nat} {l : List Char} (h : Deep k l) (hle : n ≤ k) : Deep n l :=
  h.imp id hle.trans

/-- A line behind a margin. -/
theorem leading_margin (n : Nat) (l : List Char) :
    leading (List.replicate n ' ' ++ l) = n + leading l := by
  have hspaces : ∀ c ∈ List.replicate n ' ', decide (c = ' ') = true := by
    intro c hc
    simpa using (List.mem_replicate.mp hc).2
  unfold leading
  rw [List.takeWhile_append_of_pos hspaces, List.length_append, List.length_replicate]

theorem deep_margin {n k : Nat} (h : n ≤ k) (l : List Char) :
    Deep n (List.replicate k ' ' ++ l) :=
  .inr (by rw [leading_margin]; omega)

/-! ## The parts of a class -/

namespace ClassBlock

variable (o : Options) (b : ClassBlock)

/-- The line of the class. -/
def head : String := "class " ++ b.name ++ ":"

/-- The line of the constructor. -/
def opening : String := o.margin 1 ++ signature o.style

/-- The body of the constructor. -/
def body : String :=
  indented (o.margin 2) (skeletonText b.skeleton).toList ++
    (if hasStatement (skeletonText b.skeleton).toList then "" else o.margin 2 ++ "pass\n")

/-- The properties, behind an empty line. -/
def accessors : String :=
  if (propertiesText o b.properties).toList.isEmpty then ""
  else "\n" ++ indented (o.margin 1) (Text.trimEnd (propertiesText o b.properties).toList)

/-- The text of a class is that of its parts. -/
theorem text_eq : b.text o =
    b.head ++ "\n" ++ opening o ++ "\n" ++ b.body o ++ b.accessors o ++ "\n" := by
  have hcolon : ":\n" = ":" ++ "\n" := rfl
  unfold text head opening body accessors
  simp only [hcolon, String.append_assoc]

/-- The text of a class, whose lines end at the characters `ends`, is properly nested. -/
structure Nested (ends : Char → Bool) : Prop where
  /-- The class stands at the margin. -/
  start : ∃ first rest, linesAt ends (b.text o).toList = first :: rest ∧ leading first = 0
  /-- All that follows its line stands deeper. -/
  inside : ∀ l ∈ (linesAt ends (b.text o).toList).tail, Deep 1 l
  /-- The body of the constructor stands deeper than its head. -/
  body : ∀ l ∈ linesAt ends (b.body o).toList, Deep (leading (opening o).toList + 1) l

/-- What stands behind a line end within the first line of a class, or within a line of its text, is
    deep enough by itself. -/
structure KeepsLevel (ends : Char → Bool) : Prop where
  /-- The name is written as it is. -/
  name : ∀ x ∈ (linesAt ends b.head.toList).tail, Deep 1 x
  body : ∀ l ∈ Text.lines (skeletonText b.skeleton).toList, ∀ x ∈ (linesAt ends l).tail,
    Deep (o.indent + 1) x
  accessors : ∀ l ∈ Text.lines (Text.trimEnd (propertiesText o b.properties).toList),
    ∀ x ∈ (linesAt ends l).tail, Deep 1 x

end ClassBlock

/-! ## Lines behind a margin -/

/-- The text of a line behind a margin. -/
def marginLine (n : Nat) (l : List Char) : List Char :=
  if l.isEmpty then [] else List.replicate n ' ' ++ l

theorem toList_indented (n : Nat) (text : List Char) :
    (indented (String.ofList (List.replicate n ' ')) text).toList =
      (Text.lines text).flatMap fun l => marginLine n l ++ ['\n'] := by
  unfold indented
  rw [String.toList_join, List.flatMap_map]
  congr 1
  funext l
  unfold marginLine
  split
  · rfl
  · simp

section ends
variable {ends : Char → Bool} (hends : EndsLines ends)

theorem linesAt_of_forall {cs : List Char} (h : ∀ c ∈ cs, ends c = false) :
    linesAt ends cs = [cs] :=
  List.splitOnP_eq_singleton h

include hends

theorem linesAt_append (xs ys : List Char) :
    linesAt ends (xs ++ '\n' :: ys) = linesAt ends xs ++ linesAt ends ys :=
  List.splitOnP_append_cons xs ys hends.feed

/-- A margin goes in front of the first piece. -/
theorem linesAt_margin (n : Nat) (cs : List Char) :
    linesAt ends (List.replicate n ' ' ++ cs) =
      (linesAt ends cs).modifyHead (List.replicate n ' ' ++ ·) := by
  induction n with
  | zero => cases h : linesAt ends cs <;> simp [h]
  | succ n ih =>
    rw [List.replicate_succ, List.cons_append]
    unfold linesAt at ih ⊢
    rw [List.splitOnP_cons_eq_if_modifyHead, hends.inner (by decide) (by decide), ih]
    cases List.splitOnP ends cs <;> simp

theorem linesAt_indented (n : Nat) (text rest : List Char) :
    linesAt ends ((indented (String.ofList (List.replicate n ' ')) text).toList ++ rest) =
      (Text.lines text).flatMap (fun l => linesAt ends (marginLine n l)) ++ linesAt ends rest := by
  rw [toList_indented]
  -- on the lines: each ends in a line feed, where the pieces of the rest begin
  induction Text.lines text with
  | nil => rfl
  | cons l ls ih =>
    rw [List.flatMap_cons, List.flatMap_cons, List.append_assoc, List.append_assoc,
      List.append_assoc, List.singleton_append, linesAt_append hends, ih]

/-- Behind a margin a line is as deep as the margin, and so are its pieces if the further ones are. -/
theorem deep_marginLine {n k : Nat} (hle : n ≤ k) (l : List Char) :
    (∀ x ∈ linesAt ends (marginLine k l), Deep n x) ↔
      ∀ x ∈ (linesAt ends l).tail, Deep n x := by
  unfold marginLine
  split
  · next hnil =>
    obtain rfl := List.isEmpty_iff.mp hnil
    simp [linesAt, deep_nil]
  · rw [linesAt_margin hends]
    -- the margin deepens the first piece alone
    cases hpieces : linesAt ends l with
    | nil => exact absurd hpieces (linesAt_ne_nil ends l)
    | cons first rest => simp [deep_margin hle]

/-- All pieces of an indented text are deep if the further pieces of its lines are. -/
theorem deep_indented {n k : Nat} (hle : n ≤ k) (text rest : List Char) :
    (∀ x ∈ linesAt ends ((indented (String.ofList (List.replicate k ' ')) text).toList ++ rest),
        Deep n x) ↔
      (∀ l ∈ Text.lines text, ∀ x ∈ (linesAt ends l).tail, Deep n x) ∧
        ∀ x ∈ linesAt ends rest, Deep n x := by
  rw [linesAt_indented hends, List.forall_mem_append, List.forall_mem_flatMap]
  simp only [deep_marginLine hends hle]

end ends

/-- The lines of a text have no line feeds, so there each of them is one piece. -/
theorem tail_linesAt_lineFeed {cs l : List Char} (hl : l ∈ Text.lines cs) :
    (linesAt lineFeed l).tail = [] := by
  have hfree := Text.not_mem_of_mem_lines hl
  have hone : linesAt lineFeed l = [l] := linesAt_of_forall fun c hc => by
    have hne : c ≠ '\n' := fun h => hfree (h ▸ hc)
    simpa [lineFeed] using hne
  rw [hone]
  rfl

/-! ## Lines of a class -/

namespace ClassBlock

variable {ends : Char → Bool} {o : Options} {b : ClassBlock}

theorem toList_opening :
    (opening o).toList = List.replicate o.indent ' ' ++ (signature o.style).toList := by
  simp [opening, Options.margin]

theorem leading_opening : leading (opening o).toList = o.indent := by
  have hsignature : leading (signature o.style).toList = 0 := by cases o.style <;> decide
  rw [toList_opening, leading_margin, hsignature, Nat.add_zero]

/-- Without a margin the constructor stands beside its class. -/
theorem deep_opening : Deep 1 (opening o).toList ↔ 0 < o.indent := by
  rw [Deep, leading_opening, or_iff_right]
  · rfl
  · intro hblank
    have hletter : 'd' ∈ (opening o).toList := by
      rw [toList_opening]
      cases o.style <;> simp [signature]
    exact absurd (hblank 'd' hletter) (by decide)

section ends
variable (hends : EndsLines ends)
include hends

theorem linesAt_opening : linesAt ends (opening o).toList = [(opening o).toList] := by
  refine linesAt_of_forall fun c hc => ?_
  rw [toList_opening, List.mem_append] at hc
  have hsignature : ∀ c ∈ (signature o.style).toList, c ≠ '\n' ∧ c ≠ '\r' := by
    cases o.style <;> simp [signature]
  rcases hc with hc | hc
  · obtain rfl := List.eq_of_mem_replicate hc
    exact hends.inner (by decide) (by decide)
  · exact hends.inner (hsignature c hc).1 (hsignature c hc).2

theorem deep_body {n : Nat} (hle : n ≤ o.indent * 2) (rest : List Char) :
    (∀ x ∈ linesAt ends ((b.body o).toList ++ rest), Deep n x) ↔
      (∀ l ∈ Text.lines (skeletonText b.skeleton).toList, ∀ x ∈ (linesAt ends l).tail, Deep n x) ∧
        ∀ x ∈ linesAt ends rest, Deep n x := by
  unfold body Options.margin
  rw [String.toList_append, List.append_assoc, deep_indented hends hle]
  refine and_congr_right fun _ => ?_
  split
  · rfl
  · -- the statement that fills an empty body is as deep as any other
    have hpass : linesAt ends (List.replicate (o.indent * 2) ' ' ++ ['p', 'a', 's', 's']) =
        [List.replicate (o.indent * 2) ' ' ++ ['p', 'a', 's', 's']] := by
      rw [linesAt_margin hends, linesAt_of_forall]
      · rfl
      · intro c hc
        have hletters : ∀ c ∈ ['p', 'a', 's', 's'], c ≠ '\n' ∧ c ≠ '\r' := by simp
        exact hends.inner (hletters c hc).1 (hletters c hc).2
    have htext : (String.ofList (List.replicate (o.indent * 2) ' ') ++ "pass\n").toList ++ rest =
        (List.replicate (o.indent * 2) ' ' ++ ['p', 'a', 's', 's']) ++ '\n' :: rest := by simp
    rw [htext, linesAt_append hends, hpass, List.singleton_append, List.forall_mem_cons,
      and_iff_right (deep_margin hle _)]

theorem deep_accessors {n : Nat} (hle : n ≤ o.indent) (rest : List Char) :
    (∀ x ∈ linesAt ends ((b.accessors o).toList ++ rest), Deep n x) ↔
      (∀ l ∈ Text.lines (Text.trimEnd (propertiesText o b.properties).toList),
        ∀ x ∈ (linesAt ends l).tail, Deep n x) ∧ ∀ x ∈ linesAt ends rest, Deep n x := by
  unfold accessors
  split
  · next hnil =>
    rw [List.isEmpty_iff.mp hnil]
    simp [Text.trimEnd, Text.lines]
  · have hmargin : o.margin 1 = String.ofList (List.replicate o.indent ' ') := by
      rw [Options.margin, Nat.mul_one]
    have htext : ("\n" ++ indented (o.margin 1)
          (Text.trimEnd (propertiesText o b.properties).toList)).toList ++ rest =
        [] ++ '\n' :: ((indented (String.ofList (List.replicate o.indent ' '))
          (Text.trimEnd (propertiesText o b.properties).toList)).toList ++ rest) := by
      rw [hmargin]
      simp
    have hempty : linesAt ends [] = [[]] := linesAt_of_forall (by simp)
    rw [htext, linesAt_append hends, hempty, List.singleton_append, List.forall_mem_cons,
      and_iff_right (deep_nil n), deep_indented hends hle]

/-- The lines of a class are those of its parts. -/
theorem linesAt_text : linesAt ends (b.text o).toList =
    linesAt ends b.head.toList ++ (opening o).toList ::
      linesAt ends ((b.body o).toList ++ ((b.accessors o).toList ++ ['\n'])) := by
  have htext : (b.text o).toList = b.head.toList ++ '\n' :: ((opening o).toList ++ '\n' ::
      ((b.body o).toList ++ ((b.accessors o).toList ++ ['\n']))) := by
    rw [text_eq]
    simp
  rw [htext, linesAt_append hends, linesAt_append hends, linesAt_opening hends,
    List.singleton_append]

theorem exists_first : ∃ first rest, linesAt ends (b.text o).toList = first :: rest ∧
    leading first = 0 := by
  -- whatever ends the first line, it starts with a letter
  obtain ⟨cs, hcs⟩ : ∃ cs, (b.text o).toList = 'c' :: cs := by
    rw [text_eq, head]
    exact ⟨_, by simp; rfl⟩
  obtain ⟨first, rest, hrest⟩ := List.exists_cons_of_ne_nil (linesAt_ne_nil ends cs)
  refine ⟨'c' :: first, rest, ?_, by simp [leading]⟩
  unfold linesAt at hrest ⊢
  rw [hcs, List.splitOnP_cons_eq_if_modifyHead, hends.inner (by decide) (by decide), hrest]
  rfl

/-- Behind the first line there are the pieces of the name, the constructor and the properties. -/
theorem inside_iff : (∀ x ∈ (linesAt ends (b.text o).toList).tail, Deep 1 x) ↔
    0 < o.indent ∧ (∀ x ∈ (linesAt ends b.head.toList).tail, Deep 1 x) ∧
      (∀ l ∈ Text.lines (skeletonText b.skeleton).toList, ∀ x ∈ (linesAt ends l).tail, Deep 1 x) ∧
      ∀ l ∈ Text.lines (Text.trimEnd (propertiesText o b.properties).toList),
        ∀ x ∈ (linesAt ends l).tail, Deep 1 x := by
  have hlast : ∀ x ∈ linesAt ends ['\n'], Deep 1 x := by
    have hfeed : linesAt ends ['\n'] = linesAt ends [] ++ linesAt ends [] :=
      linesAt_append hends [] []
    have hempty : linesAt ends [] = [[]] := linesAt_of_forall (by simp)
    simp [hfeed, hempty, deep_nil]
  rw [linesAt_text hends, List.tail_append_of_ne_nil (linesAt_ne_nil _ _),
    List.forall_mem_append, List.forall_mem_cons, deep_opening, and_left_comm]
  refine and_congr_right fun hpos => and_congr_right fun _ => ?_
  rw [deep_body hends (by omega), deep_accessors hends hpos, and_iff_left hlast]

theorem body_iff (hpos : 0 < o.indent) :
    (∀ x ∈ linesAt ends (b.body o).toList, Deep (leading (opening o).toList + 1) x) ↔
      ∀ l ∈ Text.lines (skeletonText b.skeleton).toList,
        ∀ x ∈ (linesAt ends l).tail, Deep (o.indent + 1) x := by
  have hend : ∀ x ∈ linesAt ends [], Deep (o.indent + 1) x := by simp [linesAt, deep_nil]
  have hdeep := deep_body hends (o := o) (b := b) (n := o.indent + 1) (by omega) []
  rw [List.append_nil, and_iff_left hend] at hdeep
  rwa [leading_opening]

/-- A class is properly nested exactly if there is a margin, and what is not behind it keeps its level
    without. -/
theorem nested_iff : b.Nested o ends ↔ 0 < o.indent ∧ b.KeepsLevel o ends := by
  constructor
  · rintro ⟨-, htail, hconstructor⟩
    obtain ⟨hpos, hname, -, hproperties⟩ := (inside_iff hends).mp htail
    exact ⟨hpos, hname, (body_iff hends hpos).mp hconstructor, hproperties⟩
  · rintro ⟨hpos, hname, hskeleton, hproperties⟩
    -- what is deep enough for the body is deep enough for the class
    have houter : ∀ l ∈ Text.lines (skeletonText b.skeleton).toList,
        ∀ x ∈ (linesAt ends l).tail, Deep 1 x :=
      fun l hl x hx => (hskeleton l hl x hx).mono (by omega)
    exact ⟨exists_first hends, (inside_iff hends).mpr ⟨hpos, hname, houter, hproperties⟩,
      (body_iff hends hpos).mpr hskeleton⟩

end ends

/-- Line feeds in the text of a class do no harm, except in its name. -/
theorem nested_lineFeed_iff : b.Nested o lineFeed ↔
    0 < o.indent ∧ ∀ x ∈ (linesAt lineFeed b.head.toList).tail, Deep 1 x := by
  have hpieces : ∀ n cs, ∀ l ∈ Text.lines cs, ∀ x ∈ (linesAt lineFeed l).tail, Deep n x := by
    intro n cs l hl
    rw [tail_linesAt_lineFeed hl]
    simp
  rw [nested_iff endsLines_lineFeed]
  exact and_congr_right fun _ => ⟨fun h => h.name, fun h => ⟨h, hpieces _ _, hpieces _ _⟩⟩

theorem nested_iff_of_name (h : '\n' ∉ b.name.toList) : b.Nested o lineFeed ↔ 0 < o.indent := by
  have hhead : linesAt lineFeed b.head.toList = [b.head.toList] := by
    refine linesAt_of_forall fun c hc => ?_
    have hne : c ≠ '\n' := by
      rintro rfl
      simp [head, h] at hc
    simpa [lineFeed] using hne
  rw [nested_lineFeed_iff, hhead]
  simp

end ClassBlock

/-- When a class of a module is properly nested. -/
structure Module.NestedWhen (o : Options) (m : Module) (b : ClassBlock) : Prop where
  /-- The class is a part of the module. -/
  part : ∃ before after, m.text o = before ++ b.text o ++ after
  /-- Its own parts stand behind one another. -/
  parts : b.text o =
    b.head ++ "\n" ++ ClassBlock.opening o ++ "\n" ++ b.body o ++ b.accessors o ++ "\n"
  /-- There has to be a margin, and what is not behind it has to keep its level. -/
  margin : ∀ ends, EndsLines ends → (b.Nested o ends ↔ 0 < o.indent ∧ b.KeepsLevel o ends)
  /-- If only line feeds end lines, that concerns the name alone. -/
  feeds : b.Nested o lineFeed ↔
    0 < o.indent ∧ ∀ x ∈ (linesAt lineFeed b.head.toList).tail, Deep 1 x
  /-- A name without a line feed keeps its level. -/
  named : '\n' ∉ b.name.toList → (b.Nested o lineFeed ↔ 0 < o.indent)

theorem Module.nestedWhen {o : Options} {m : Module} {b : ClassBlock} (hb : b ∈ m.classes) :
    m.NestedWhen o b where
  part := part_of_mem hb
  parts := b.text_eq o
  margin _ hends := ClassBlock.nested_iff hends
  feeds := ClassBlock.nested_lineFeed_iff
  named := ClassBlock.nested_iff_of_name

end Script

namespace Program

open Script

variable {m : Model} {p : Program}

/-- A program under options that go over its own. -/
def overlaid (p : Program) (overlay : Options.Patch) : Program :=
  { p with options := p.options.patch overlay }

/-- A class whose constructor can be written is in every module. -/
theorem blockOf_mem_classes (hp : p.Closed) {d : Catalog.Reactor}
    (hd : p.catalog.reactor? d.id = some d) {lines : List Line}
    (h : (p.skeleton d.id).run = some (.ok lines)) (header : List String) :
    p.blockOf d ∈ (p.moduleOf header).classes ∧ (p.blockOf d).skeleton = lines := by
  cases hhollow : p.hollow? d.id with
  | some q =>
    have hfails : (p.skeleton d.id).run = _ := skeleton_fails hp hd hhollow
    rw [hfails] at h
    cases h
  | none =>
    have hgives : (p.skeleton d.id).run = _ := skeleton_gives hp hd hhollow
    rw [hgives] at h
    cases h
    have hwritten : p.writtenClass d = some (p.blockOf d) := by simp [writtenClass, hhollow]
    exact ⟨List.mem_filterMap.mpr ⟨d, Catalog.mem_reactors hd, hwritten⟩, rfl⟩

/-- Whatever options go over those of an accepted model, the module has the class of every reactor
    whose constructor can be written.  If line feeds end lines, a class whose name has none is
    properly nested exactly if a level of indentation has a space at all, whatever else is in its
    text. -/
theorem classes_nested_iff (h : m.elaborate = some (.ok p)) (overlay : Options.Patch)
    (header : List String) :
    ∃ module reports, ((p.overlaid overlay).emit header).run = some (module, reports) ∧
      (∀ d ∈ p.catalog.reactors.toList, ∀ lines,
        ((p.overlaid overlay).skeleton d.id).run = some (.ok lines) →
        ∃ b ∈ module.classes, b.reactor = d.id ∧ b.skeleton = lines) ∧
      ∀ b ∈ module.classes, module.NestedWhen (p.overlaid overlay).options b ∧
        ∃ d ∈ p.catalog.reactors.toList, b.reactor = d.id ∧ b.name = className d.name := by
  have hp : (p.overlaid overlay).Closed :=
    (closed_of_loaded (Model.loaded_of_elaborate h).1).withOptions _
  refine ⟨_, _, emit_run hp header, ?_, ?_⟩
  · intro d hd lines hlines
    obtain ⟨hmem, hskeleton⟩ := blockOf_mem_classes hp (found_reactor hp hd) hlines header
    exact ⟨_, hmem, rfl, hskeleton⟩
  · intro b hb
    obtain ⟨d, hd, hwritten⟩ := List.mem_filterMap.mp hb
    refine ⟨Module.nestedWhen hb, d, hd, ?_⟩
    unfold writtenClass at hwritten
    split at hwritten
    · cases hwritten
    · cases hwritten
      exact ⟨rfl, rfl⟩

/-- A reactor whose parameter has code of three lines, one of which ends in a carriage return. -/
def multiline : Model where
  options := .standard
  reactors := [⟨"A", [], [⟨"x", none, [.code "[\n1,\r2]"], .nowhere⟩], .nowhere⟩]
  main := ⟨"main", "A", [], [], .nowhere⟩

/-- The program of `multiline`. -/
def multilineProgram : Program where
  catalog :=
    { reactors := #[⟨⟨0⟩, "A", [], [⟨0⟩], .nowhere⟩]
      parameters := #[⟨⟨0⟩, ⟨0⟩, "x", none, [.constant (.code "[\n1,\r2]")], .nowhere⟩] }
  assembly := { nodes := #[⟨⟨0⟩, "main", ⟨0⟩, none, [], [], .nowhere⟩] }

/-- Its class is properly nested as long as carriage returns end no lines, even with a single space a
    level. -/
theorem classes_nested_multiline :
    multiline.elaborate = some (.ok multilineProgram) ∧
      ∃ module reports b,
        ((multilineProgram.overlaid { indent := some 1, style := some .bulkMerge }).emit []).run =
          some (module, reports) ∧
        module.classes = [b] ∧
        b.Nested (multilineProgram.overlaid { indent := some 1, style := some .bulkMerge }).options
          lineFeed ∧
        ¬ b.Nested (multilineProgram.overlaid { indent := some 1, style := some .bulkMerge }).options
          lineBreak := by
  have hload : multiline.elaborate = some (.ok multilineProgram) := rfl
  obtain ⟨module, reports, hrun, hwritten, hnested⟩ :=
    classes_nested_iff hload { indent := some 1, style := some .bulkMerge } []
  have hp : (multilineProgram.overlaid { indent := some 1, style := some .bulkMerge }).Closed :=
    (closed_of_loaded (Model.loaded_of_elaborate hload).1).withOptions _
  have hwhole := hrun
  rw [emit_run hp] at hwhole
  cases hwhole
  obtain ⟨hwhen, -⟩ := hnested _ List.mem_cons_self
  refine ⟨hload, _, _, _, hrun, rfl, (hwhen.named (by decide)).mpr (by decide), fun hbreak => ?_⟩
  -- the carriage return leaves the end of the code at the margin
  obtain ⟨-, hlevel⟩ := (hwhen.margin lineBreak endsLines_lineBreak).mp hbreak
  have hdeep := hlevel.body ['1', ',', '\r', '2', ']'] (by decide +kernel) ['2', ']'] (by decide)
  simp [Deep, leading] at hdeep

/-- A reactor under options that indent by no spaces. -/
def flat : Model where
  options := { Options.standard with indent := 0 }
  reactors := [⟨"A", [], [], .nowhere⟩]
  main := ⟨"main", "A", [], [], .nowhere⟩

/-- The program of `flat`. -/
def flatProgram : Program where
  options := { Options.standard with indent := 0 }
  catalog := { reactors := #[⟨⟨0⟩, "A", [], [], .nowhere⟩] }
  assembly := { nodes := #[⟨⟨0⟩, "main", ⟨0⟩, none, [], [], .nowhere⟩] }

/-- No complaint is made about the options, and the constructor stands beside its class. -/
theorem classes_flat :
    flat.elaborate = some (.ok flatProgram) ∧ flatProgram.options.complaint? = none ∧
      ∃ module b, ((flatProgram.overlaid {}).emit []).run = some (module, []) ∧
        module.classes = [b] ∧
        b.text flatProgram.options = "class _A:\ndef __init__(self):\n" ++
          "# Define parameters and their default values\npass\n\n" ∧
        ∀ ends, EndsLines ends → ¬ b.Nested flatProgram.options ends := by
  have hload : flat.elaborate = some (.ok flatProgram) := rfl
  have hp : (flatProgram.overlaid {}).Closed :=
    (closed_of_loaded (Model.loaded_of_elaborate hload).1).withOptions _
  have hrun := emit_run hp []
  refine ⟨hload, by decide, _, _, hrun, rfl, by decide, fun ends hends => ?_⟩
  rw [ClassBlock.nested_iff hends]
  rintro ⟨hpos, -⟩
  exact absurd hpos (by decide)

end Program

end Reactors
