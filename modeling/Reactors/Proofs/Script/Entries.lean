import Mathlib.Data.List.Nodup
import Reactors.Script.Overrides

/-! # The last entry of each name

    The entries that count are searched from the back, where an entry is kept unless one of its name
    has been kept already, and are then put back in order.  What is left are the entries that have
    no later one of their name.
-/

namespace Reactors.Script

/-- The entries that no later entry has the name of. -/
def lastOfEachName : List Entry → List Entry
  | [] => []
  | e :: es =>
    if es.any fun f => f.name == e.name then lastOfEachName es else e :: lastOfEachName es

/-! ## The search from the back -/

/-- Another entry is kept unless its name has been seen. -/
theorem newlyNamed_concat (seen : List String) (es : List Entry) (e : Entry) :
    newlyNamed seen (es ++ [e]) = newlyNamed seen es ++
      if e.name ∈ seen ∨ e.name ∈ es.map (·.name) then [] else [e] := by
  induction es generalizing seen with
  | nil => simp [newlyNamed]
  | cons f es ih =>
    rw [List.cons_append, newlyNamed, newlyNamed]
    by_cases hf : f.name ∈ seen
    · -- that `f` has the name too makes no difference, since the name has been seen
      have hname : e.name = f.name → e.name ∈ seen := fun h => h ▸ hf
      have hseen : (e.name ∈ seen ∨ e.name ∈ (f :: es).map (·.name)) ↔
          (e.name ∈ seen ∨ e.name ∈ es.map (·.name)) := by
        rw [List.map_cons, List.mem_cons, ← or_assoc, or_iff_left_of_imp hname]
      rw [if_pos hf, if_pos hf, ih, if_congr hseen rfl rfl]
    · have hseen : (e.name ∈ seen ∨ e.name ∈ (f :: es).map (·.name)) ↔
          (e.name ∈ f.name :: seen ∨ e.name ∈ es.map (·.name)) := by
        rw [List.map_cons, List.mem_cons, List.mem_cons, or_assoc, or_left_comm]
      rw [if_neg hf, if_neg hf, ih, if_congr hseen rfl rfl, List.cons_append]

theorem reverse_newlyNamed (es : List Entry) :
    (newlyNamed [] es.reverse).reverse = lastOfEachName es := by
  induction es with
  | nil => rfl
  | cons e es ih =>
    have hlater : (e.name ∈ ([] : List String) ∨ e.name ∈ es.reverse.map (·.name)) ↔
        (es.any fun f => f.name == e.name) = true := by
      simp
    rw [List.reverse_cons, newlyNamed_concat, List.reverse_append, ih, lastOfEachName,
      if_congr hlater rfl rfl]
    split <;> rfl

theorem Overrides.distinct_eq (o : Overrides) : o.distinct = lastOfEachName o.entries :=
  reverse_newlyNamed o.entries

/-! ## What is kept -/

theorem lastOfEachName_of_nodup {es : List Entry} (hnd : (es.map (·.name)).Nodup) :
    lastOfEachName es = es := by
  induction es with
  | nil => rfl
  | cons e es ih =>
    rw [List.map_cons, List.nodup_cons] at hnd
    have hfree : (es.any fun f => f.name == e.name) = false := by
      rw [List.any_eq_false]
      intro f hf hname
      exact hnd.1 (List.mem_map.mpr ⟨f, hf, by simpa using hname⟩)
    rw [lastOfEachName, hfree, ih hnd.2]
    rfl

/-- An entry that is not collapsed is the last one of its name. -/
theorem last_of_mem_lastOfEachName {es : List Entry} {e : Entry} (he : e ∈ lastOfEachName es) :
    es.reverse.find? (fun f => f.name == e.name) = some e := by
  induction es with
  | nil => simp [lastOfEachName] at he
  | cons f es ih =>
    -- an entry is kept at the front only if no later one has its name
    rw [List.reverse_cons, List.find?_append]
    unfold lastOfEachName at he
    split at he
    · rw [ih he]
      rfl
    · next hlast =>
      rcases List.mem_cons.mp he with rfl | he
      · have hnone : es.reverse.find? (fun f => f.name == e.name) = none := by
          rw [List.find?_eq_none]
          intro g hg hname
          exact hlast (List.any_eq_true.mpr ⟨g, List.mem_reverse.mp hg, hname⟩)
        rw [hnone]
        simp
      · rw [ih he]
        rfl

/-- The last entry of a name is not collapsed. -/
theorem mem_lastOfEachName {es : List Entry} {name : String} {e : Entry}
    (h : es.reverse.find? (fun f => f.name == name) = some e) : e ∈ lastOfEachName es := by
  induction es with
  | nil => simp at h
  | cons f es ih =>
    rw [List.reverse_cons, List.find?_append] at h
    unfold lastOfEachName
    cases hlast : es.reverse.find? (fun f => f.name == name) with
    | some g =>
      rw [hlast] at h
      cases h
      have hmem := ih hlast
      split
      · exact hmem
      · exact List.mem_cons_of_mem _ hmem
    | none =>
      rw [hlast] at h
      have hname : (f.name == name) = true ∧ f = e := by simpa using h
      obtain ⟨hname, rfl⟩ := hname
      have hfree : (es.any fun g => g.name == f.name) = false := by
        rw [List.any_eq_false]
        intro g hg hgf
        rw [List.find?_eq_none] at hlast
        have hgname : g.name = name := (beq_iff_eq.mp hgf).trans (beq_iff_eq.mp hname)
        exact hlast g (List.mem_reverse.mpr hg) (beq_iff_eq.mpr hgname)
      rw [hfree]
      exact List.mem_cons_self

theorem lastOfEachName_sublist (es : List Entry) : (lastOfEachName es).Sublist es := by
  induction es with
  | nil => exact .slnil
  | cons e es ih =>
    unfold lastOfEachName
    split
    · exact ih.cons e
    · exact ih.cons_cons e

theorem mem_of_mem_lastOfEachName {es : List Entry} {e : Entry} (h : e ∈ lastOfEachName es) :
    e ∈ es :=
  (lastOfEachName_sublist es).subset h

theorem nodup_names_lastOfEachName (es : List Entry) :
    ((lastOfEachName es).map (·.name)).Nodup := by
  induction es with
  | nil => exact List.nodup_nil
  | cons e es ih =>
    unfold lastOfEachName
    split
    · exact ih
    · next hlast =>
      refine List.nodup_cons.mpr ⟨?_, ih⟩
      intro hname
      obtain ⟨f, hf, hfname⟩ := List.mem_map.mp hname
      exact hlast (List.any_eq_true.mpr ⟨f, mem_of_mem_lastOfEachName hf, by simpa using hfname⟩)

theorem mem_names_lastOfEachName {es : List Entry} {name : String} :
    name ∈ (lastOfEachName es).map (·.name) ↔ name ∈ es.map (·.name) := by
  constructor
  · exact fun h => ((lastOfEachName_sublist es).map _).subset h
  · -- the last entry of the name counts
    intro h
    obtain ⟨e, he, rfl⟩ := List.mem_map.mp h
    have hsome : (es.reverse.find? fun f => f.name == e.name).isSome := by
      rw [List.find?_isSome]
      exact ⟨e, List.mem_reverse.mpr he, by simp⟩
    obtain ⟨f, hf⟩ := Option.isSome_iff_exists.mp hsome
    have hname : f.name = e.name := by simpa using List.find?_some hf
    exact List.mem_map.mpr ⟨f, mem_lastOfEachName hf, hname⟩

namespace Overrides

variable {o : Overrides}

theorem mem_of_mem_distinct {e : Entry} (h : e ∈ o.distinct) : e ∈ o.entries :=
  mem_of_mem_lastOfEachName (o.distinct_eq ▸ h)

theorem nodup_names_distinct (o : Overrides) : (o.distinct.map (·.name)).Nodup :=
  o.distinct_eq ▸ nodup_names_lastOfEachName o.entries

theorem mem_names_distinct {name : String} :
    name ∈ o.distinct.map (·.name) ↔ name ∈ o.entries.map (·.name) := by
  rw [distinct_eq, mem_names_lastOfEachName]

end Overrides

end Reactors.Script
