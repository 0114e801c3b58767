import Mathlib.Data.List.Basic
import Reactors.Text.Blank

/-! # Lines of a text

    Lines have no line feeds in them, and a text without a line feed is a single line.  What stands
    behind a line feed falls into the lines that it would fall into alone.
-/

namespace Reactors.Text

/-- A character that does not end a line goes in front of the first line. -/
theorem lines_cons {c : Char} {cs : List Char} (hc : c ≠ '\n')
    (hreturn : ∀ rest, c = '\r' → cs ≠ '\n' :: rest) :
    lines (c :: cs) = (c :: (lines cs).headD []) :: (lines cs).tail := by
  conv_lhs => unfold lines
  split
  · simp_all
  · simp_all
  · simp_all
  · next d ds _ _ h =>
    obtain ⟨rfl, rfl⟩ := List.cons.inj h
    cases lines cs <;> rfl

theorem not_mem_of_mem_lines {cs l : List Char} (hl : l ∈ lines cs) : '\n' ∉ l := by
  induction cs using lines.induct generalizing l with
  | case1 => simp [lines] at hl
  | case2 cs ih | case3 cs ih =>
    rcases List.mem_cons.mp hl with rfl | hl
    · simp
    · exact ih hl
  | case4 c cs hc hreturn hnil ih =>
    rw [lines_cons hc hreturn, hnil] at hl
    obtain rfl := List.mem_singleton.mp hl
    simpa using Ne.symm hc
  | case5 c cs hc hreturn first rest hcons ih =>
    rw [lines_cons hc hreturn, hcons] at hl
    rw [hcons] at ih
    rcases List.mem_cons.mp hl with rfl | hl
    · simpa using ⟨Ne.symm hc, ih List.mem_cons_self⟩
    · exact ih (List.mem_cons_of_mem _ hl)

theorem lines_of_not_mem {cs : List Char} (h : '\n' ∉ cs) (hne : cs ≠ []) : lines cs = [cs] := by
  induction cs with
  | nil => exact absurd rfl hne
  | cons c cs ih =>
    rw [List.mem_cons, not_or] at h
    have hreturn : ∀ rest, c = '\r' → cs ≠ '\n' :: rest := by
      rintro rest - rfl
      exact h.2 List.mem_cons_self
    rw [lines_cons (Ne.symm h.1) hreturn]
    cases cs with
    | nil => rfl
    | cons d ds => rw [ih h.2 (List.cons_ne_nil _ _)]; rfl

/-- Behind a line feed the lines of the rest begin. -/
theorem exists_lines_append (xs ys : List Char) :
    ∃ before, lines (xs ++ '\n' :: ys) = before ++ lines ys ∧ before ≠ [] := by
  induction xs using lines.induct with
  | case1 => exact ⟨[[]], by simp [lines], List.cons_ne_nil _ _⟩
  | case2 cs ih | case3 cs ih =>
    obtain ⟨before, hbefore, _⟩ := ih
    exact ⟨[] :: before, by simp [lines, hbefore], List.cons_ne_nil _ _⟩
  | case4 c cs hc hreturn _ ih | case5 c cs hc hreturn _ _ _ ih =>
    by_cases hlast : c = '\r' ∧ cs = []
    · -- the line feed has a carriage return before it
      obtain ⟨rfl, rfl⟩ := hlast
      exact ⟨[[]], by simp [lines], List.cons_ne_nil _ _⟩
    · have hfree : ∀ rest, c = '\r' → cs ++ '\n' :: ys ≠ '\n' :: rest := by
        rintro rest rfl heq
        cases cs with
        | nil => exact hlast ⟨rfl, rfl⟩
        | cons d ds =>
          obtain ⟨rfl, -⟩ := List.cons.inj heq
          exact hreturn ds rfl rfl
      obtain ⟨before, hbefore, hne⟩ := ih
      obtain ⟨first, rest, rfl⟩ := List.exists_cons_of_ne_nil hne
      refine ⟨(c :: first) :: rest, ?_, List.cons_ne_nil _ _⟩
      rw [List.cons_append, lines_cons hc hfree, hbefore]
      rfl

end Reactors.Text
