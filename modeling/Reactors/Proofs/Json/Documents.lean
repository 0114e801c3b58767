import Reactors.Json.Decode
import Reactors.Proofs.Json.Numerals

/-! # Documents are read as what they say

    The reader follows the grammar: where a text spells a value, the reader finds that value and
    stops behind it.  Each of its calls takes a character away at least every second time, so the
    bound on nested calls is never met, and neither is the one on brackets if the reading is not
    too deep.
-/

namespace Reactors.Json

open Reactors.Decimal (isDigit)

/-! ## Blanks -/

theorem Blank.isBlank {blanks : List Char} (h : Blank blanks) :
    ∀ c ∈ blanks, isBlank c = true := by
  intro c hc
  have hmem := h c hc
  simp only [List.mem_cons, List.not_mem_nil, or_false] at hmem
  rcases hmem with rfl | rfl | rfl | rfl <;> rfl

theorem skipBlanks_append {blanks rest : List Char} (h : Blank blanks)
    (hrest : ∀ c ∈ rest.head?, isBlank c = false) : skipBlanks (blanks ++ rest) = rest := by
  unfold skipBlanks
  rw [List.dropWhile_append_of_pos h.isBlank]
  cases rest with
  | nil => rfl
  | cons c rest => simp [hrest c rfl]

theorem skipBlanks_eq_nil {blanks : List Char} (h : Blank blanks) : skipBlanks blanks = [] := by
  have happend : skipBlanks (blanks ++ []) = [] := skipBlanks_append h (by simp)
  rwa [List.append_nil] at happend

/-- No numeral goes on with a blank. -/
theorem Ends.blank_append {blanks rest : List Char} (h : Blank blanks) (hrest : Ends rest) :
    Ends (blanks ++ rest) := by
  cases blanks with
  | nil => exact hrest
  | cons c blanks =>
    intro d hd
    obtain rfl : c = d := by simpa using hd
    have hc := h c (by simp)
    simp only [List.mem_cons, List.not_mem_nil, or_false] at hc
    rcases hc with rfl | rfl | rfl | rfl <;> decide

/-! ## Strings -/

theorem unitChar?_toNat (c : Char) : unitChar? c.toNat = some c := by
  have hvalid : c.toNat < 0xD800 ∨ 0xDFFF < c.toNat ∧ c.toNat < 0x110000 := c.valid
  unfold unitChar?
  rw [if_neg (by omega), Char.ofNat_toNat]

theorem letterEscape?_of_mem {l c : Char} (h : (l, c) ∈ shortEscapes) :
    letterEscape? l = some c := by
  have hall : ∀ p ∈ shortEscapes, letterEscape? p.1 = some p.2 := by decide
  exact hall (l, c) h

theorem HexDigit.hexValue? {c : Char} {v : Nat} (h : HexDigit c v) : hexValue? c = some v := by
  have hall : ∀ v < 16, Json.hexValue? (Nat.digitChar v) = some v ∧
      Json.hexValue? (Nat.digitChar v).toUpper = some v := by decide
  obtain ⟨hv, rfl | rfl⟩ := h
  · exact (hall v hv).1
  · exact (hall v hv).2

theorem HexUnit.hexUnit? {a b c d : Char} {n : Nat} (h : HexUnit a b c d n) :
    hexUnit? a b c d = some n := by
  obtain ⟨i, j, k, l, ha, hb, hc, hd, rfl⟩ := h
  simp [Json.hexUnit?, ha.hexValue?, hb.hexValue?, hc.hexValue?, hd.hexValue?]

/-- A string is read up to its closing quote. -/
theorem stringBody?_append {s t : List Char} (h : Escaped s t) (rest : List Char) :
    stringBody? (t ++ '"' :: rest) = some (s, rest) := by
  induction h with
  | nil => rfl
  | plain hquote hslash hcode _ ih =>
    rename_i c s t _
    have hcontrol : ¬ (c = '\\' ∨ c.toNat < 0x20) := by
      rintro (h | h)
      · exact hslash h
      · omega
    rw [List.cons_append, stringBody?]
    · simp [hcontrol, ih]
    all_goals simp_all
  | letter hletter _ ih =>
    rename_i l c s t _
    have hread := letterEscape?_of_mem hletter
    have hu : l ≠ 'u' := by rintro rfl; simp [letterEscape?] at hread
    rw [List.cons_append, List.cons_append, stringBody?]
    · simp [hread, ih]
    all_goals simp_all
  | unit hunit _ ih =>
    simp only [List.cons_append, stringBody?, hunit.hexUnit?, unitChar?_toNat, ih]
    rfl
  | pair hlead htrail h₁ h₂ h₃ h₄ hcode _ ih =>
    rename_i ch a b c d e f g h lead trail s t _
    have hsurrogate : unitChar? lead = none := if_pos ⟨h₁, by omega⟩
    have hpair : pairChar? lead trail = some ch := by
      rw [pairChar?, if_pos ⟨h₁, h₂, h₃, h₄⟩, ← hcode, Char.ofNat_toNat]
    simp only [List.cons_append, stringBody?, hlead.hexUnit?, hsurrogate, htrail.hexUnit?,
      Option.bind_some, hpair, ih]
    rfl

/-! ## Scalars -/

/-- Whether a character starts a value that is neither a string nor in brackets. -/
def IsScalarStart (c : Char) : Prop :=
  isBlank c = false ∧ c ≠ ']' ∧ c ≠ '[' ∧ c ≠ '\x7b' ∧ c ≠ '"'

instance : DecidablePred IsScalarStart := fun _ => inferInstanceAs (Decidable (_ ∧ _))

theorem readValue_scalar {gap cs : List Char} (hgap : Blank gap)
    (hcs : ∃ c tail, cs = c :: tail ∧ IsScalarStart c) (fuel room : Nat) :
    readValue (fuel + 1) room (gap ++ cs) = readScalar cs := by
  obtain ⟨c, tail, rfl, hblank, _, harray, hobject, hquote⟩ := hcs
  have hskip : skipBlanks (gap ++ c :: tail) = c :: tail :=
    skipBlanks_append hgap (by simpa using hblank)
  rw [readValue, hskip]
  split <;> simp_all

/-- A digit starts none of the words, and is no sign. -/
theorem ne_of_isDigit {c : Char} (h : isDigit c = true) :
    c ≠ 'n' ∧ c ≠ 't' ∧ c ≠ 'f' ∧ c ≠ '-' := by
  refine ⟨?_, ?_, ?_, ?_⟩ <;> rintro rfl <;> simp [isDigit] at h

theorem isScalarStart_of_isDigit {c : Char} (h : isDigit c = true) : IsScalarStart c := by
  refine ⟨?_, ?_, ?_, ?_, ?_⟩
  · by_contra hblank
    simp only [isBlank, Bool.not_eq_false, Bool.or_eq_true, decide_eq_true_eq] at hblank
    rcases hblank with ((rfl | rfl) | rfl) | rfl <;> simp [isDigit] at h
  all_goals rintro rfl; simp [isDigit] at h

namespace Numeral
variable (x : Numeral)

theorem unsignedText_eq_cons : ∃ c tail, x.unsignedText = c :: tail ∧ isDigit c = true := by
  obtain ⟨c, cs, hcs⟩ := List.exists_cons_of_ne_nil x.whole.nonempty
  refine ⟨c, cs ++ (x.fractionText ++ x.powerText), ?_, x.whole.isDigit_of_mem c (by simp [hcs])⟩
  rw [unsignedText, hcs, List.cons_append]

theorem isScalarStart_text : ∃ c tail, x.text = c :: tail ∧ IsScalarStart c := by
  unfold text
  split
  · exact ⟨'-', _, rfl, by simp [IsScalarStart, isBlank]⟩
  · obtain ⟨c, tail, hcs, hc⟩ := x.unsignedText_eq_cons
    exact ⟨c, tail, hcs, isScalarStart_of_isDigit hc⟩

theorem readScalar_text {x : Numeral} {n : Number} (h : x.Denotes n) {rest : List Char}
    (hrest : Ends rest) : readScalar (x.text ++ rest) = (.number n, some rest) := by
  have hread := numeral?_append h hrest
  unfold text
  cases hnegative : x.negative with
  | true =>
    rw [hnegative] at hread
    simp [readScalar, hread]
  | false =>
    rw [hnegative] at hread
    obtain ⟨c, tail, hcs, hc⟩ := x.unsignedText_eq_cons
    obtain ⟨hn, ht, hf, hminus⟩ := ne_of_isDigit hc
    rw [hcs] at hread ⊢
    simp only [Bool.false_eq_true, if_false, List.cons_append] at hread ⊢
    unfold readScalar
    split <;> simp_all

end Numeral

/-! ## Values -/

/-- A value starts with no blank and with no closing bracket. -/
theorem Spells.eq_cons {r : Reading} {cs : List Char} (h : Spells r cs) :
    ∃ c tail, cs = c :: tail ∧ isBlank c = false ∧ c ≠ ']' := by
  cases h with
  | null => exact ⟨'n', _, rfl, by decide⟩
  | yes => exact ⟨'t', _, rfl, by decide⟩
  | no => exact ⟨'f', _, rfl, by decide⟩
  | @number x n _ =>
    obtain ⟨c, tail, hcs, hc⟩ := x.isScalarStart_text
    exact ⟨c, tail, hcs, hc.1, hc.2.1⟩
  | string hs =>
    obtain ⟨body, _, rfl⟩ := hs
    exact ⟨'"', _, rfl, by decide⟩
  | array _ => exact ⟨'[', _, rfl, by decide⟩
  | object _ => exact ⟨'\x7b', _, rfl, by decide⟩

/-- In front of an item there is nothing but a separator and blanks. -/
theorem Gap.afterSeparator?_eq {first : Bool} {gap : List Char} (h : Gap first gap) {c : Char}
    (hc : isBlank c = false) (tail : List Char) :
    ∃ d ds after, skipBlanks (gap ++ c :: tail) = d :: ds ∧ (d = c ∨ d = ',') ∧
      afterSeparator? first (d :: ds) = some (after ++ c :: tail) ∧ Blank after := by
  cases h with
  | first hbefore =>
    exact ⟨c, tail, [], skipBlanks_append hbefore (by simpa using hc), .inl rfl, rfl, blank_nil⟩
  | @further before after hbefore hafter =>
    refine ⟨',', after ++ c :: tail, after, ?_, .inr rfl, rfl, hafter⟩
    rw [List.append_assoc, List.cons_append]
    exact skipBlanks_append hbefore (by rintro c ⟨⟩; decide)

theorem Gap.ends {gap : List Char} (h : Gap false gap) (rest : List Char) : Ends (gap ++ rest) := by
  cases h with
  | @further before after hbefore hafter =>
    rw [List.append_assoc]
    refine Ends.blank_append hbefore ?_
    rintro c ⟨⟩
    decide

/-- Behind an item there is no more of a numeral. -/
theorem SpellsItems.ends {items : Items} {cs : List Char} (h : SpellsItems false items cs)
    (rest : List Char) : Ends (cs ++ rest) := by
  cases h with
  | closed hblank =>
    rw [List.append_assoc]
    refine Ends.blank_append hblank ?_
    rintro c ⟨⟩
    decide
  | cons hgap _ _ =>
    rw [List.append_assoc]
    exact hgap.ends _

/-- Behind a member there is no more of a numeral. -/
theorem SpellsMembers.ends {members : Members} {cs : List Char}
    (h : SpellsMembers false members cs) (rest : List Char) : Ends (cs ++ rest) := by
  cases h with
  | closed hblank =>
    rw [List.append_assoc]
    refine Ends.blank_append hblank ?_
    rintro c ⟨⟩
    decide
  | cons hgap _ _ _ _ _ =>
    rw [List.append_assoc]
    exact hgap.ends _

/-! ## Runs of the reader -/

/-- What the reader does with a string. -/
theorem readValue_string {gap cs : List Char} {s : String} (hgap : Blank gap)
    (h : StringText s cs) (fuel room : Nat) (rest : List Char) :
    readValue (fuel + 1) room (gap ++ (cs ++ rest)) = (.string s, some rest) := by
  obtain ⟨body, hbody, rfl⟩ := h
  have hstart : '"' :: (body ++ ['"']) ++ rest = '"' :: (body ++ '"' :: rest) := by simp
  have hskip : skipBlanks (gap ++ '"' :: (body ++ '"' :: rest)) = '"' :: (body ++ '"' :: rest) :=
    skipBlanks_append hgap (by rintro c ⟨⟩; decide)
  rw [readValue, hstart, hskip]
  simp [stringBody?_append hbody]

/-- What the reader does with an array, given what it does with the items. -/
theorem readValue_array {gap cs rest : List Char} {items : Items} {fuel room : Nat}
    (hgap : Blank gap) (h : readItems fuel room true (cs ++ rest) = (items, some rest)) :
    readValue (fuel + 1) (room + 1) (gap ++ ('[' :: cs ++ rest)) = (.array items, some rest) := by
  have hskip : skipBlanks (gap ++ ('[' :: cs ++ rest)) = '[' :: (cs ++ rest) :=
    skipBlanks_append hgap (by rintro c ⟨⟩; decide)
  rw [readValue, hskip]
  simp [h]

/-- What the reader does with an object, given what it does with the members. -/
theorem readValue_object {gap cs rest : List Char} {members : Members} {fuel room : Nat}
    (hgap : Blank gap) (h : readMembers fuel room true (cs ++ rest) = (members, some rest)) :
    readValue (fuel + 1) (room + 1) (gap ++ ('\x7b' :: cs ++ rest)) =
      (.object members, some rest) := by
  have hskip : skipBlanks (gap ++ ('\x7b' :: cs ++ rest)) = '\x7b' :: (cs ++ rest) :=
    skipBlanks_append hgap (by rintro c ⟨⟩; decide)
  rw [readValue, hskip]
  simp [h]

theorem readItems_closed {blanks : List Char} (h : Blank blanks) (fuel room : Nat) (first : Bool)
    (rest : List Char) :
    readItems (fuel + 1) room first (blanks ++ [']'] ++ rest) = (.closed, some rest) := by
  have hskip : skipBlanks (blanks ++ ']' :: rest) = ']' :: rest :=
    skipBlanks_append h (by rintro c ⟨⟩; decide)
  rw [readItems, List.append_assoc, List.singleton_append, hskip]
  rfl

/-- What the reader does with an item, given what it does with the rest of them. -/
theorem readItems_cons {first : Bool} {gap cs rest : List Char} {head : Reading} {tail : Items}
    {fuel room : Nat} {after : Option (List Char)} (hgap : Gap first gap) (hcs : Spells head cs)
    (hhead : ∀ blanks, Blank blanks →
      readValue fuel room (blanks ++ (cs ++ rest)) = (head, some rest))
    (htail : readItems fuel room false rest = (tail, after)) :
    readItems (fuel + 1) room first (gap ++ (cs ++ rest)) = (.cons head tail, after) := by
  obtain ⟨c, cs, rfl, hblank, hclose⟩ := hcs.eq_cons
  obtain ⟨d, ds, blanks, hskip, hd, hafter, hblanks⟩ :=
    hgap.afterSeparator?_eq hblank (cs ++ rest)
  have hne : d ≠ ']' := by
    rcases hd with rfl | rfl
    · exact hclose
    · decide
  have hread := hhead blanks hblanks
  rw [List.cons_append] at hread
  rw [readItems, List.cons_append, hskip]
  split
  · simp_all
  · simp only [hafter, hread, htail]

theorem readMembers_closed {blanks : List Char} (h : Blank blanks) (fuel room : Nat)
    (first : Bool) (rest : List Char) :
    readMembers (fuel + 1) room first (blanks ++ ['\x7d'] ++ rest) = (.closed, some rest) := by
  have hskip : skipBlanks (blanks ++ '\x7d' :: rest) = '\x7d' :: rest :=
    skipBlanks_append h (by rintro c ⟨⟩; decide)
  rw [readMembers, List.append_assoc, List.singleton_append, hskip]
  rfl

/-- What the reader does with a member, given what it does with its value and with the rest. -/
theorem readMembers_cons {first : Bool} {gap name before after cs rest : List Char} {key : String}
    {value : Reading} {tail : Members} {fuel room : Nat} {behind : Option (List Char)}
    (hgap : Gap first gap) (hname : StringText key name) (hbefore : Blank before)
    (hvalue : readValue fuel room (after ++ (cs ++ rest)) = (value, some rest))
    (htail : readMembers fuel room false rest = (tail, behind)) :
    readMembers (fuel + 1) room first
        (gap ++ (name ++ (before ++ ':' :: (after ++ (cs ++ rest))))) =
      (.cons key value tail, behind) := by
  obtain ⟨body, hbody, rfl⟩ := hname
  generalize hcolon : before ++ ':' :: (after ++ (cs ++ rest)) = text
  have hskipColon : skipBlanks text = ':' :: (after ++ (cs ++ rest)) := by
    rw [← hcolon]
    exact skipBlanks_append hbefore (by rintro c ⟨⟩; decide)
  have hstart : '"' :: (body ++ ['"']) ++ text = '"' :: (body ++ '"' :: text) := by simp
  obtain ⟨d, ds, blanks, hskip, hd, hafter, hblanks⟩ :=
    hgap.afterSeparator?_eq (c := '"') (by decide) (body ++ '"' :: text)
  have hskipName : skipBlanks (blanks ++ '"' :: (body ++ '"' :: text)) =
      '"' :: (body ++ '"' :: text) :=
    skipBlanks_append hblanks (by rintro c ⟨⟩; decide)
  have hne : d ≠ '\x7d' := by rcases hd with rfl | rfl <;> decide
  rw [readMembers, hstart, hskip]
  split
  · simp_all
  · simp only [hafter, hskipName, stringBody?_append hbody, hskipColon, hvalue, htail,
      String.ofList_toList]

mutual

/-- A value is read as what it says, and the reader stops behind it. -/
theorem readValue_append {r : Reading} {cs : List Char} (h : Spells r cs) {fuel room : Nat}
    (hfuel : 2 * cs.length ≤ fuel) (hroom : r.depth ≤ room) {gap rest : List Char}
    (hgap : Blank gap) (hrest : Ends rest) :
    readValue fuel room (gap ++ (cs ++ rest)) = (r, some rest) := by
  -- a value has a character, and so there is fuel for this call
  obtain ⟨fuel, rfl⟩ : ∃ n, fuel = n + 1 := by
    obtain ⟨c, tail, rfl, _⟩ := h.eq_cons
    exact ⟨fuel - 1, by rw [List.length_cons] at hfuel; omega⟩
  match h with
  | .null =>
    rw [List.cons_append, readValue_scalar hgap ⟨'n', _, rfl, by decide⟩]
    rfl
  | .yes =>
    rw [List.cons_append, readValue_scalar hgap ⟨'t', _, rfl, by decide⟩]
    rfl
  | .no =>
    rw [List.cons_append, readValue_scalar hgap ⟨'f', _, rfl, by decide⟩]
    rfl
  | .number (x := x) hn =>
    obtain ⟨c, tail, hcs, hc⟩ := x.isScalarStart_text
    rw [readValue_scalar hgap ⟨c, tail ++ rest, by rw [hcs, List.cons_append], hc⟩]
    exact Numeral.readScalar_text hn hrest
  | .string hs => exact readValue_string hgap hs fuel room rest
  | .array hitems =>
    rw [List.length_cons] at hfuel
    obtain ⟨room, rfl⟩ : ∃ n, room = n + 1 := ⟨room - 1, by rw [Reading.depth] at hroom; omega⟩
    exact readValue_array hgap (readItems_append hitems (by omega) (by
      simpa [Reading.depth] using hroom) rest)
  | .object hmembers =>
    rw [List.length_cons] at hfuel
    obtain ⟨room, rfl⟩ : ∃ n, room = n + 1 := ⟨room - 1, by rw [Reading.depth] at hroom; omega⟩
    exact readValue_object hgap (readMembers_append hmembers (by omega) (by
      simpa [Reading.depth] using hroom) rest)

/-- The items of an array are read as what they say. -/
theorem readItems_append {first : Bool} {items : Items} {cs : List Char}
    (h : SpellsItems first items cs) {fuel room : Nat} (hfuel : 2 * cs.length + 1 ≤ fuel)
    (hroom : items.depth ≤ room) (rest : List Char) :
    readItems fuel room first (cs ++ rest) = (items, some rest) := by
  obtain ⟨fuel, rfl⟩ : ∃ n, fuel = n + 1 := ⟨fuel - 1, by omega⟩
  match h with
  | .closed hblank => exact readItems_closed hblank fuel room first rest
  | @SpellsItems.cons _ gap cs more head tail hgap hhead htail =>
    -- the item has a character, so that what is left is shorter by more than the one call
    obtain ⟨c, _, hcs, _⟩ := hhead.eq_cons
    have hpos : 0 < cs.length := by rw [hcs]; simp
    simp only [List.length_append] at hfuel
    rw [Items.depth, max_le_iff] at hroom
    have hmore : readItems fuel room false (more ++ rest) = (tail, some rest) :=
      readItems_append htail (by omega) hroom.2 rest
    rw [List.append_assoc, List.append_assoc]
    refine readItems_cons hgap hhead (fun blanks hblanks => ?_) hmore
    exact readValue_append hhead (by omega) hroom.1 hblanks (htail.ends rest)

/-- The members of an object are read as what they say. -/
theorem readMembers_append {first : Bool} {members : Members} {cs : List Char}
    (h : SpellsMembers first members cs) {fuel room : Nat} (hfuel : 2 * cs.length + 1 ≤ fuel)
    (hroom : members.depth ≤ room) (rest : List Char) :
    readMembers fuel room first (cs ++ rest) = (members, some rest) := by
  obtain ⟨fuel, rfl⟩ : ∃ n, fuel = n + 1 := ⟨fuel - 1, by omega⟩
  match h with
  | .closed hblank => exact readMembers_closed hblank fuel room first rest
  | @SpellsMembers.cons _ gap name before after cs more key value tail hgap hname hbefore hafter
      hvalue htail =>
    simp only [List.length_append, List.length_cons] at hfuel
    rw [Members.depth, max_le_iff] at hroom
    have hmore : readMembers fuel room false (more ++ rest) = (tail, some rest) :=
      readMembers_append htail (by omega) hroom.2 rest
    have hread : readValue fuel room (after ++ (cs ++ (more ++ rest))) =
        (value, some (more ++ rest)) :=
      readValue_append hvalue (by omega) hroom.1 hafter (htail.ends rest)
    simp only [List.append_assoc, List.cons_append]
    exact readMembers_cons hgap hname hbefore hread hmore

end

/-! ## Documents -/

/-- A document that is not too deep is read as what it says. -/
theorem read_document {r : Reading} {text : String} (h : Document r text)
    (hdepth : r.depth ≤ maxDepth) :
    ∃ after, read text = (r, some after) ∧ Blank after := by
  obtain ⟨before, cs, after, hbefore, hcs, hafter, htext⟩ := h
  refine ⟨after, ?_, hafter⟩
  have hends : Ends after := by
    have hnil : Ends [] := by simp [Ends]
    simpa using Ends.blank_append hafter hnil
  unfold read
  rw [htext]
  refine readValue_append hcs ?_ hdepth hbefore hends
  simp only [List.length_append]
  omega

/-- A text without blanks around it is read to its end. -/
theorem read_ofList {r : Reading} {cs : List Char} (h : Spells r cs) (hdepth : r.depth ≤ maxDepth) :
    read (String.ofList cs) = (r, some []) := by
  have hread : readValue (2 * cs.length + 2) maxDepth ([] ++ (cs ++ [])) = (r, some []) :=
    readValue_append h (by omega) hdepth blank_nil (by simp [Ends])
  unfold read
  rw [String.toList_ofList]
  simpa using hread

/-- A document is decoded as its reading is. -/
theorem decode_document {α : Type} {decoder : Decoder α} {r : Reading} {text : String} {a : α}
    (h : Document r text) (hdepth : r.depth ≤ maxDepth) (hr : decoder r = .ok a) :
    decode decoder text = .ok a := by
  obtain ⟨after, hread, hafter⟩ := read_document h hdepth
  unfold decode
  rw [hread]
  simp [hr, skipBlanks_eq_nil hafter]

end Reactors.Json
