import Reactors.Proofs.Program.Built
import Reactors.Proofs.Script.Indentation

/-! # Bodies without a statement

    A body of comments alone is none in the target language, so it gets a statement that does
    nothing.  Whether a body has another one is told from its text, line by line, and the text may
    have all kinds of characters in it.  Still the answer is right: the line of a field starts with
    a letter, a line feed alone stands before it, and the comments are one line each.  So the filler
    is there exactly if nothing is visible on the reactor and no keywords are stored.
-/

namespace Reactors

namespace Catalog

variable {c : Catalog}

/-- A reactor has no parameters, and neither has anything that it extends, directly or not. -/
def Bare (c : Catalog) (r : ReactorId) : Prop := ∀ s, c.Reaches r s → c.own s = []

theorem Closed.bare_iff (hc : c.Closed) {r : ReactorId} (hr : c.HasReactor r) {qs : List Parameter}
    (h : c.visible? r = some qs) : c.Bare r ↔ qs = [] := by
  have hids := hc.visibleIds?_of_visible h
  have hmem := fun q => hc.mem_visibleIds_iff hr hids (q := q)
  constructor
  · intro hbare
    rw [← List.map_eq_nil_iff, List.eq_nil_iff_forall_not_mem]
    intro q hq
    obtain ⟨s, hs, hown⟩ := (hmem q).mp hq
    simp [hbare s hs] at hown
  · rintro rfl s hs
    rw [List.eq_nil_iff_forall_not_mem]
    intro q hq
    simpa using (hmem q).mpr ⟨s, hs, hq⟩

end Catalog

namespace Script

/-! ## Lines that are statements -/

/-- A line other than a comment starts with the object that is constructed. -/
theorem Line.text_of_statement {l : Line} (h : ∀ text, l ≠ .comment text) :
    ∃ rest, l.text = "self." ++ rest := by
  cases l with
  | comment text => exact absurd rfl (h text)
  | assign param name type terms value =>
    cases type with
    | none =>
      exact ⟨fieldName name ++ " = " ++ value, by simp only [Line.text, String.append_assoc]⟩
    | some type =>
      exact ⟨fieldName name ++ ":" ++ type ++ " = " ++ value,
        by simp only [Line.text, String.append_assoc]⟩
  | mergeKeywords => exact ⟨"__dict__.update(kwargs)", rfl⟩

/-- Whatever stands around it, the text of a statement begins a line of the body. -/
theorem exists_line_of_statement {ls : List Line} {l : Line} (hl : l ∈ ls)
    (h : ∀ text, l ≠ .comment text) :
    ∃ rest, 's' :: rest ∈ Text.lines (skeletonText ls).toList := by
  obtain ⟨us, vs, rfl⟩ := List.append_of_mem hl
  obtain ⟨text, htext⟩ := Line.text_of_statement h
  -- the text of the statement and of all lines behind it
  obtain ⟨tail, htail⟩ : ∃ tail,
      ("\n".intercalate ((l :: vs).map Line.text)).toList = 's' :: tail := by
    rw [List.map_cons, htext, String.intercalate_cons_append]
    exact ⟨_, by simp; rfl⟩
  have hfirst : ∃ rest, 's' :: rest ∈ Text.lines ('s' :: tail) := by
    rw [Text.lines_cons (by decide) (fun _ h => absurd h (by decide))]
    exact ⟨_, List.mem_cons_self⟩
  by_cases hus : us = []
  · subst hus
    rw [List.nil_append, skeletonText, htail]
    exact hfirst
  · have hbefore : (skeletonText (us ++ l :: vs)).toList =
        ("\n".intercalate (us.map Line.text)).toList ++ '\n' :: 's' :: tail := by
      rw [skeletonText, List.map_append, String.intercalate_append_of_ne_nil (by simpa using hus)
        (by simp), String.toList_append, String.toList_append, htail]
      simp
    obtain ⟨before, hlines, _⟩ := Text.exists_lines_append
      ("\n".intercalate (us.map Line.text)).toList ('s' :: tail)
    obtain ⟨rest, hrest⟩ := hfirst
    exact ⟨rest, by rw [hbefore, hlines]; exact List.mem_append_right _ hrest⟩

theorem hasStatement_of_mem {text rest : List Char} (h : 's' :: rest ∈ Text.lines text) :
    hasStatement text = true := by
  refine List.any_eq_true.mpr ⟨_, h, ?_⟩
  have hletter : Text.isBlank 's' = false := by decide
  simp [Text.trimStart, hletter]

/-! ## Fillers -/

namespace ClassBlock

variable (o : Options) (b : ClassBlock)

/-- The lines of the body, at their level. -/
def statements : String := indented (o.margin 2) (skeletonText b.skeleton).toList

/-- The statement that does nothing, at the level of the body. -/
def filler : String := o.margin 2 ++ "pass\n"

variable {o b}

theorem body_of_hasStatement (h : hasStatement (skeletonText b.skeleton).toList = true) :
    b.body o = b.statements o := by
  simp [body, statements, h]

theorem body_of_not_hasStatement (h : hasStatement (skeletonText b.skeleton).toList = false) :
    b.body o = b.statements o ++ filler o := by
  simp [body, statements, filler, h]

theorem filler_ne_empty : filler o ≠ "" := by simp [filler]

theorem body_eq_filled_iff : b.body o = b.statements o ++ filler o ↔
    ¬ hasStatement (skeletonText b.skeleton).toList = true := by
  cases h : hasStatement (skeletonText b.skeleton).toList with
  | true =>
    rw [body_of_hasStatement h, eq_comm]
    simp [filler_ne_empty]
  | false => simp [body_of_not_hasStatement h]

theorem body_eq_statements_iff : b.body o = b.statements o ↔
    hasStatement (skeletonText b.skeleton).toList = true := by
  cases h : hasStatement (skeletonText b.skeleton).toList with
  | true => simp [body_of_hasStatement h]
  | false => simp [body_of_not_hasStatement h, filler_ne_empty]

end ClassBlock

/-! ## Lines of code -/

/-- A line that is more than blanks and a comment. -/
def IsCode (l : List Char) : Prop := ∃ c rest, Text.trimStart l = c :: rest ∧ c ≠ '#'

theorem isCode_margin (n : Nat) {c : Char} (hblank : Text.isBlank c = false) (hsign : c ≠ '#')
    (rest : List Char) : IsCode (List.replicate n ' ' ++ c :: rest) := by
  refine ⟨c, rest, ?_, hsign⟩
  have hspaces : ∀ x ∈ List.replicate n ' ', Text.isBlank x = true := by
    intro x hx
    rw [List.eq_of_mem_replicate hx]
    decide
  rw [Text.trimStart, List.dropWhile_append_of_pos hspaces,
    List.dropWhile_cons_of_neg (by simp [hblank])]

section ends
variable {ends : Char → Bool} (hends : EndsLines ends)
include hends

/-- Whatever ends lines, a text behind a margin begins with a line of code if it does so itself. -/
theorem exists_code_margin (n : Nat) {c : Char} (hblank : Text.isBlank c = false) (hsign : c ≠ '#')
    (rest : List Char) : ∃ l ∈ linesAt ends (List.replicate n ' ' ++ c :: rest), IsCode l := by
  have hinner : ends c = false := by
    apply hends.inner
    · rintro rfl
      exact absurd hblank (by decide)
    · rintro rfl
      exact absurd hblank (by decide)
  obtain ⟨first, later, hpieces⟩ := List.exists_cons_of_ne_nil (linesAt_ne_nil ends rest)
  have hcons : linesAt ends (c :: rest) = (c :: first) :: later := by
    unfold linesAt at hpieces ⊢
    rw [List.splitOnP_cons_eq_if_modifyHead, hinner, hpieces]
    rfl
  rw [linesAt_margin hends, hcons, List.modifyHead_cons]
  exact ⟨_, List.mem_cons_self, isCode_margin n hblank hsign first⟩

namespace ClassBlock

variable {o : Options} {b : ClassBlock}

/-- The filler is a line of code if nothing else in the body is. -/
theorem exists_code_body (h : hasStatement (skeletonText b.skeleton).toList = true →
      ∃ rest, 's' :: rest ∈ Text.lines (skeletonText b.skeleton).toList) :
    ∃ l ∈ linesAt ends (b.body o).toList, IsCode l := by
  cases hstatement : hasStatement (skeletonText b.skeleton).toList with
  | true =>
    obtain ⟨rest, hrest⟩ := h hstatement
    obtain ⟨l, hl, hcode⟩ := exists_code_margin hends (o.indent * 2) (c := 's') (by decide)
      (by decide) rest
    refine ⟨l, ?_, hcode⟩
    have hlines := linesAt_indented hends (o.indent * 2) (skeletonText b.skeleton).toList []
    rw [List.append_nil] at hlines
    rw [body_of_hasStatement hstatement, statements, Options.margin, hlines]
    exact List.mem_append_left _ (List.mem_flatMap.mpr ⟨_, hrest, hl⟩)
  | false =>
    obtain ⟨l, hl, hcode⟩ := exists_code_margin hends (o.indent * 2) (c := 'p') (by decide)
      (by decide) ['a', 's', 's', '\n']
    refine ⟨l, ?_, hcode⟩
    have hfiller : (filler o).toList =
        List.replicate (o.indent * 2) ' ' ++ ['p', 'a', 's', 's', '\n'] := by
      simp [filler, Options.margin]
    rw [body_of_not_hasStatement hstatement, String.toList_append, hfiller, statements,
      Options.margin, linesAt_indented hends]
    exact List.mem_append_right _ hl

end ClassBlock

end ends

end Script

namespace Program

open Script

variable {p : Program}

/-! ## Bodies of reactors -/

/-- The class `b` of the reactor `r`, with the body of its constructor. -/
structure Filled (p : Program) (r : ReactorId) (b : ClassBlock) : Prop where
  /-- The body stands between the head of the constructor and the properties. -/
  text : b.text p.options = b.head ++ "\n" ++ ClassBlock.opening p.options ++ "\n" ++
    b.body p.options ++ b.accessors p.options ++ "\n"
  /-- The filler is in it exactly if nothing is declared on the reactor and all that it extends, and
      the style stores no keywords. -/
  filled_iff : b.body p.options = b.statements p.options ++ ClassBlock.filler p.options ↔
    p.catalog.Bare r ∧ p.options.style = .targeted
  /-- Otherwise nothing stands behind the lines of the body. -/
  unfilled_iff : b.body p.options = b.statements p.options ↔
    ¬ (p.catalog.Bare r ∧ p.options.style = .targeted)
  /-- Whatever ends lines, one of them is more than a comment. -/
  code : ∀ ends, EndsLines ends → ∃ l ∈ linesAt ends (b.body p.options).toList, IsCode l

/-- The lines of a constructor tell whether there is a field or a merge of keywords. -/
theorem exists_statement_iff (d : Catalog.Reactor) :
    (∃ l ∈ (p.blockOf d).skeleton, ∀ text, l ≠ .comment text) ↔
      ¬ (p.visibleOf d.id = [] ∧ p.options.style = .targeted) := by
  unfold blockOf
  cases hstyle : p.options.style with
  | bulkMerge => exact iff_of_true ⟨.mergeKeywords, by simp [mergeLines], by simp⟩ (by simp)
  | targeted =>
    cases hvisible : p.visibleOf d.id with
    | nil => simp [mergeLines]
    | cons q qs => simp [fieldOf]

/-- Without a field and a merge of keywords there is a single comment. -/
theorem hasStatement_bare {d : Catalog.Reactor} (hvisible : p.visibleOf d.id = [])
    (hstyle : p.options.style = .targeted) :
    hasStatement (skeletonText (p.blockOf d).skeleton).toList = false := by
  simp only [blockOf, hvisible, hstyle, mergeLines, List.map_nil]
  decide +kernel

/-- The text of a body tells what its lines are. -/
theorem hasStatement_iff (d : Catalog.Reactor) :
    hasStatement (skeletonText (p.blockOf d).skeleton).toList = true ↔
      ¬ (p.visibleOf d.id = [] ∧ p.options.style = .targeted) := by
  constructor
  · rintro h ⟨hvisible, hstyle⟩
    rw [hasStatement_bare hvisible hstyle] at h
    cases h
  · intro h
    obtain ⟨l, hl, hcode⟩ := (exists_statement_iff d).mpr h
    obtain ⟨rest, hrest⟩ := exists_line_of_statement hl hcode
    exact hasStatement_of_mem hrest

theorem filled (hp : p.Closed) {d : Catalog.Reactor} (hd : p.catalog.reactor? d.id = some d) :
    p.Filled d.id (p.blockOf d) := by
  have hr := Catalog.hasReactor_of_some hd
  have hneeded : p.catalog.Bare d.id ∧ p.options.style = .targeted ↔
      ¬ hasStatement (skeletonText (p.blockOf d).skeleton).toList = true := by
    rw [hasStatement_iff, not_not, hp.catalog.bare_iff hr (hp.visible? hr)]
  refine
    { text := ClassBlock.text_eq _ _
      filled_iff := ClassBlock.body_eq_filled_iff.trans hneeded.symm
      unfilled_iff := by rw [hneeded, not_not, ClassBlock.body_eq_statements_iff]
      code := fun ends hends => ClassBlock.exists_code_body hends fun hstatement => ?_ }
  obtain ⟨l, hl, hcode⟩ := (exists_statement_iff d).mpr ((hasStatement_iff d).mp hstatement)
  exact exists_line_of_statement hl hcode

/-- In the module of a program with identities in range, every class whose constructor can be
    written has a filler exactly if it needs one. -/
theorem fillers_needed (hmade : p.Made) (hrange : p.InRange) (header : List String) :
    ∃ module reports, (p.emit header).run = some (module, reports) ∧
      ∀ r d lines, p.catalog.reactor? r = some d → (p.skeleton r).run = some (.ok lines) →
        ∃ b ∈ module.classes, b.reactor = r ∧ b.skeleton = lines ∧ p.Filled r b := by
  have hp := hmade.closed hrange
  refine ⟨_, _, emit_run hp header, ?_⟩
  intro r d lines hd hlines
  obtain rfl : d.id = r := hp.catalog.reactor_id hd
  obtain ⟨hmem, hskeleton⟩ := blockOf_mem_classes hp hd hlines header
  exact ⟨_, hmem, rfl, hskeleton, filled hp hd⟩

/-- A history of a reactor with line feeds and comment signs in the name, the type and the default
    of its parameter, of one that extends it, and of one without parameters. -/
def signedHistory : List Edit :=
  [.declare "A" .nowhere,
   .addParameter ⟨0⟩ "x\n#" (some "#\ny") [.constant (.code "\r\n # \n")] .nowhere,
   .declare "B" .nowhere,
   .extend ⟨1⟩ ⟨0⟩,
   .declare "C" .nowhere]

/-- The program that it builds. -/
def signed : Program := (edits? {} signedHistory).getD {}

theorem built_signed : Built signedHistory signed := built_getD (by decide)

/-- The class of the second reactor has the field that it inherits and needs no filler; that of the
    third one needs it. -/
theorem fillers_needed_signed :
    signed.Made ∧ signed.InRange ∧ ∃ module reports,
      (signed.emit []).run = some (module, reports) ∧
      (∃ lines, (signed.skeleton ⟨1⟩).run = some (.ok lines) ∧ ∃ b ∈ module.classes,
        b.reactor = ⟨1⟩ ∧ b.skeleton = lines ∧
          b.body signed.options = b.statements signed.options) ∧
      ∃ lines, (signed.skeleton ⟨2⟩).run = some (.ok lines) ∧ ∃ b ∈ module.classes,
        b.reactor = ⟨2⟩ ∧ b.skeleton = lines ∧ b.body signed.options =
          b.statements signed.options ++ ClassBlock.filler signed.options := by
  have hmade := built_signed.made
  have hp := built_signed.closed
  obtain ⟨module, reports, hrun, hfilled⟩ := fillers_needed hmade hp.inRange []
  refine ⟨hmade, hp.inRange, module, reports, hrun, ⟨_, rfl, ?_⟩, ⟨_, rfl, ?_⟩⟩
  · obtain ⟨b, hb, hreactor, hskeleton, h⟩ := hfilled ⟨1⟩ _ _ rfl rfl
    refine ⟨b, hb, hreactor, hskeleton, h.unfilled_iff.mpr fun hbare => ?_⟩
    have hvisible := (hp.catalog.bare_iff (Catalog.hasReactor_iff.mpr ⟨_, rfl⟩) rfl).mp hbare.1
    cases hvisible
  · obtain ⟨b, hb, hreactor, hskeleton, h⟩ := hfilled ⟨2⟩ _ _ rfl rfl
    refine ⟨b, hb, hreactor, hskeleton, h.filled_iff.mpr ⟨?_, rfl⟩⟩
    exact (hp.catalog.bare_iff (Catalog.hasReactor_iff.mpr ⟨_, rfl⟩) rfl).mpr rfl

end Program

end Reactors
