import Reactors.Proofs.Json.Documents
import Reactors.Proofs.Lookup
import Reactors.Proofs.Text.Lines
import Reactors.Script.Literal

/-! # String literals

    The notation of string literals has one piece for each character, which is the character itself
    or an escape.  A literal that is written piece by piece is read back by a reader that knows the
    escapes alone: it finds the string, and the end of the literal, whatever stands behind it.
-/

namespace Reactors.Script

open Json (HexDigit hexValue?)

/-! ## The notation -/

/-- The letters that may stand behind a backslash, with the characters that they stand for. -/
def letterEscapes : List (Char × Char) :=
  [('\\', '\\'), ('"', '"'), ('n', '\n'), ('r', '\r'), ('t', '\t')]

/-- `CharText c cs`: inside a literal the characters `cs` stand for `c`. -/
inductive CharText (c : Char) : List Char → Prop
  /-- A character stands for itself, if it neither ends the literal nor starts an escape, and is no
      control character. -/
  | plain : c ≠ '"' → c ≠ '\\' → 0x20 ≤ c.toNat → CharText c [c]
  | letter {l : Char} : (l, c) ∈ letterEscapes → CharText c ['\\', l]
  /-- The two digits of the code of a character. -/
  | code {a b : Char} {i j : Nat} :
      HexDigit a i → HexDigit b j → c.toNat = 16 * i + j → CharText c ['\\', 'x', a, b]

/-- The characters of a literal from behind its opening quote, and the text behind its closing
    quote.  A line break ends the literal too early. -/
def literalBody? : List Char → Option (List Char × List Char)
  | '"' :: cs => some ([], cs)
  | '\\' :: 'x' :: a :: b :: cs =>
    match hexValue? a, hexValue? b with
    | some i, some j => (literalBody? cs).map fun p => (Char.ofNat (16 * i + j) :: p.1, p.2)
    | _, _ => none
  | '\\' :: l :: cs =>
    match letterEscapes.lookup l with
    | some c => (literalBody? cs).map fun p => (c :: p.1, p.2)
    | none => none
  | c :: cs =>
    if c = '\\' ∨ c = '\n' ∨ c = '\r' then none
    else (literalBody? cs).map fun p => (c :: p.1, p.2)
  | [] => none

/-- The string of the literal that a text starts with, and the text behind it. -/
def readLiteral? : List Char → Option (List Char × List Char)
  | '"' :: cs => literalBody? cs
  | _ => none

/-! ## Reading -/

theorem CharText.read {c : Char} {cs : List Char} (h : CharText c cs) (rest : List Char) :
    literalBody? (cs ++ rest) = (literalBody? rest).map fun p => (c :: p.1, p.2) := by
  cases h with
  | plain hquote hslash hcode =>
    have hbreak : ¬ (c = '\\' ∨ c = '\n' ∨ c = '\r') := by
      rintro (rfl | rfl | rfl)
      · exact hslash rfl
      · exact absurd hcode (by decide)
      · exact absurd hcode (by decide)
    rw [List.singleton_append]
    conv_lhs => unfold literalBody?
    split <;> simp_all
  | letter hmem =>
    have hall : ∀ p ∈ letterEscapes, p.1 ≠ 'x' ∧ letterEscapes.lookup p.1 = some p.2 := by decide
    obtain ⟨hx, hlookup⟩ := hall _ hmem
    conv_lhs => unfold literalBody?
    simp_all
  | code ha hb hcode =>
    simp [literalBody?, ha.hexValue?, hb.hexValue?, ← hcode]

/-- A literal is read piece by piece, up to its closing quote. -/
theorem literalBody?_flatten {s : List Char} {pieces : List (List Char)}
    (h : List.Forall₂ CharText s pieces) (rest : List Char) :
    literalBody? (pieces.flatten ++ '"' :: rest) = some (s, rest) := by
  induction h with
  | nil => rfl
  | cons hpiece _ ih => rw [List.flatten_cons, List.append_assoc, hpiece.read, ih]; rfl

/-! ## Writing -/

theorem charText_literalChar (c : Char) : CharText c (literalChar c) := by
  unfold literalChar
  -- five characters have escapes of their own; of the others the control characters have their codes
  split
  · exact .letter (by decide)
  · exact .letter (by decide)
  · exact .letter (by decide)
  · exact .letter (by decide)
  · exact .letter (by decide)
  · next hslash hquote _ _ _ =>
    split
    · next hcontrol =>
      exact .code ⟨by omega, .inl rfl⟩ ⟨by omega, .inl rfl⟩ (by omega)
    · next hcode => exact .plain hquote hslash (Nat.le_of_not_lt hcode)

theorem charTexts_literalChar (s : List Char) : List.Forall₂ CharText s (s.map literalChar) := by
  rw [List.forall₂_map_right_iff, List.forall₂_same]
  exact fun c _ => charText_literalChar c

theorem printable_of_hexDigit {c : Char} {v : Nat} (h : HexDigit c v) : 0x20 ≤ c.toNat := by
  have hall : ∀ v < 16, 0x20 ≤ (Nat.digitChar v).toNat ∧
      0x20 ≤ (Nat.digitChar v).toUpper.toNat := by decide
  obtain ⟨hv, rfl | rfl⟩ := h
  · exact (hall v hv).1
  · exact (hall v hv).2

theorem CharText.printable {c : Char} {cs : List Char} (h : CharText c cs) :
    ∀ d ∈ cs, 0x20 ≤ d.toNat := by
  cases h with
  | plain _ _ hcode => simpa using hcode
  | letter hmem =>
    have hall : ∀ p ∈ letterEscapes, 0x20 ≤ p.1.toNat := by decide
    have hletter := hall _ hmem
    simpa using hletter
  | code ha hb _ => simpa using ⟨printable_of_hexDigit ha, printable_of_hexDigit hb⟩

/-! ## Literals -/

/-- What `text` has to be as the literal of `s`. -/
structure LiteralOf (s text : String) : Prop where
  /-- It is the pieces of the characters of the string in order, between two quotes.  So a quote or
      a backslash inside is part of an escape. -/
  pieces : ∃ pieces, List.Forall₂ CharText s.toList pieces ∧
    text.toList = '"' :: (pieces.flatten ++ ['"'])
  printable : ∀ c ∈ text.toList, 0x20 ≤ c.toNat
  /-- The reader finds the string and the end of the literal. -/
  read : ∀ rest, readLiteral? (text.toList ++ rest) = some (s.toList, rest)
  /-- A line with the literal in it is a single line. -/
  line : ∀ before after, '\n' ∉ before → '\n' ∉ after →
    Text.lines (before ++ text.toList ++ after) = [before ++ text.toList ++ after]

theorem literalOf_of_charTexts {s text : String} {pieces : List (List Char)}
    (hpieces : List.Forall₂ CharText s.toList pieces)
    (htext : text.toList = '"' :: (pieces.flatten ++ ['"'])) : LiteralOf s text := by
  have hprintable : ∀ c ∈ text.toList, 0x20 ≤ c.toNat := by
    intro c hc
    rw [htext, List.mem_cons, List.mem_append, List.mem_flatten, List.mem_singleton] at hc
    rcases hc with rfl | ⟨piece, hpiece, hc⟩ | rfl
    · decide
    · obtain ⟨d, _, hd⟩ := Lookup.exists_mem_of_forall₂ hpieces.flip hpiece
      exact hd.printable c hc
    · decide
  refine ⟨⟨pieces, hpieces, htext⟩, hprintable, ?_, ?_⟩
  · intro rest
    rw [htext, List.cons_append, List.append_assoc]
    exact literalBody?_flatten hpieces rest
  · intro before after hbefore hafter
    have hbreak : '\n' ∉ text.toList := fun h => absurd (hprintable _ h) (by decide)
    apply Text.lines_of_not_mem
    · simp [hbefore, hbreak, hafter]
    · simp [htext]

/-- The literal of a string says what the string is, on one line and whatever stands around it.  So
    no two strings have one literal. -/
theorem stringLiteral_survives (s : String) :
    literal (.string s) = stringLiteral s ∧ LiteralOf s (stringLiteral s) ∧
      ∀ t, stringLiteral t = stringLiteral s ↔ t = s := by
  have hliteral : ∀ s, LiteralOf s (stringLiteral s) := by
    intro s
    refine literalOf_of_charTexts (charTexts_literalChar s.toList) ?_
    rw [stringLiteral, String.toList_ofList, List.flatMap_def]
    rfl
  refine ⟨rfl, hliteral s, fun t => ⟨fun h => ?_, fun h => h ▸ rfl⟩⟩
  -- what is read from one literal is one string
  have hread := (hliteral t).read []
  rw [h, (hliteral s).read [], Option.some_inj, Prod.mk.injEq] at hread
  exact (String.toList_inj.mp hread.1).symm

/-- A digit behind the code of a character is a character of its own. -/
example : stringLiteral "\x01f\"\\" = "\"\\x01f\\\"\\\\\"" := rfl

end Reactors.Script
