import Reactors.Proofs.Script.Precedence

/-! # Every name is merged once

    Of the entries of a name the last one counts.  The entries that count keep their order, and each
    name has one of them.  In the bulk-merge style they are written once each: the deferred defaults
    are stored behind the call of the class, all others are its keywords.
-/

namespace Reactors

namespace Script

/-! ## Entries that count -/

/-- The places of the entries that count. -/
theorem exists_positions (es : List Entry) : ∃ positions : List Nat,
    positions.Pairwise (· < ·) ∧ lastOfEachName es = positions.filterMap (es[·]?) ∧
      ∀ k, k ∈ positions ↔ ∃ e, es[k]? = some e ∧ ∀ f ∈ es.drop (k + 1), f.name ≠ e.name := by
  induction es with
  | nil => exact ⟨[], List.Pairwise.nil, rfl, by simp⟩
  | cons e es ih =>
    obtain ⟨ps, hascending, hentries, hlast⟩ := ih
    -- every place moves by one, and the first one may be put in front
    have hascending' : (ps.map (· + 1)).Pairwise (· < ·) := by
      rw [List.pairwise_map]
      exact hascending.imp Nat.succ_lt_succ
    have hentries' : (ps.map (· + 1)).filterMap ((e :: es)[·]?) = lastOfEachName es := by
      rw [List.filterMap_map, hentries]
      rfl
    have hlast' : ∀ k, k + 1 ∈ ps.map (· + 1) ↔ ∃ f, (e :: es)[k + 1]? = some f ∧
        ∀ g ∈ (e :: es).drop (k + 1 + 1), g.name ≠ f.name := by
      intro k
      simpa using hlast k
    unfold lastOfEachName
    by_cases hlater : es.any fun f => f.name == e.name
    · rw [if_pos hlater]
      refine ⟨ps.map (· + 1), hascending', hentries'.symm, ?_⟩
      rintro (_ | k)
      · obtain ⟨f, hf, hname⟩ := List.any_eq_true.mp hlater
        have hthere : ∃ f ∈ es, f.name = e.name := ⟨f, hf, by simpa using hname⟩
        simpa using hthere
      · exact hlast' k
    · rw [if_neg hlater]
      refine ⟨0 :: ps.map (· + 1), List.pairwise_cons.mpr ⟨by simp, hascending'⟩, ?_, ?_⟩
      · rw [List.filterMap_cons, hentries']
        rfl
      · rintro (_ | k)
        · have hfree : ∀ f ∈ es, f.name ≠ e.name := by simpa using hlater
          simpa using hfree
        · rw [← hlast' k]
          simp

/-- Entries of different names, only one of which has a given name. -/
theorem filter_name_eq_singleton {es : List Entry} (hnd : (es.map (·.name)).Nodup) {e : Entry}
    (he : e ∈ es) : es.filter (fun f => f.name = e.name) = [e] := by
  -- both lists have no repetitions, so it is enough to compare what is in them
  rw [← List.perm_singleton,
    List.perm_ext_iff_of_nodup (hnd.of_map.filter _) (List.nodup_singleton e)]
  intro f
  rw [List.mem_filter, List.mem_singleton, decide_eq_true_eq]
  constructor
  · exact fun ⟨hf, hname⟩ => List.inj_on_of_nodup_map hnd hf he hname
  · rintro rfl
    exact ⟨he, rfl⟩

namespace Overrides

/-- Which entries count, and at which positions they stand. -/
structure Collapsed (o : Overrides) (positions : List Nat) : Prop where
  ascending : positions.Pairwise (· < ·)
  entries : o.distinct = positions.filterMap (o.entries[·]?)
  /-- The entry at a position counts exactly if no later entry has its name. -/
  last : ∀ k, k ∈ positions ↔
    ∃ e, o.entries[k]? = some e ∧ ∀ f ∈ o.entries.drop (k + 1), f.name ≠ e.name
  names : (o.distinct.map (·.name)).Nodup
  cover : ∀ name, name ∈ o.distinct.map (·.name) ↔ name ∈ o.entries.map (·.name)
  /-- The value under a name is that of the one entry of the name that counts. -/
  value : ∀ name,
    (∃ e, o.distinct.filter (fun f => f.name = name) = [e] ∧ o.get? name = some e.text) ∨
      o.distinct.filter (fun f => f.name = name) = [] ∧ o.get? name = none

theorem get?_eq_none_iff {o : Overrides} {name : String} :
    o.get? name = none ↔ name ∉ o.entries.map (·.name) := by
  simp [get?]

theorem get?_of_mem_distinct {o : Overrides} {e : Entry} (he : e ∈ o.distinct) :
    o.get? e.name = some e.text := by
  rw [get?, last_of_mem_lastOfEachName (o.distinct_eq ▸ he)]
  rfl

theorem exists_collapsed (o : Overrides) : ∃ positions, o.Collapsed positions := by
  obtain ⟨positions, hascending, hentries, hlast⟩ := exists_positions o.entries
  have hnames := o.nodup_names_distinct
  refine ⟨positions, hascending, o.distinct_eq.trans hentries, hlast, hnames,
    fun _ => mem_names_distinct, ?_⟩
  intro name
  by_cases hname : name ∈ o.distinct.map (·.name)
  · obtain ⟨e, he, rfl⟩ := List.mem_map.mp hname
    exact .inl ⟨e, filter_name_eq_singleton hnames he, get?_of_mem_distinct he⟩
  · have hnone := get?_eq_none_iff.mpr (mt mem_names_distinct.mpr hname)
    refine .inr ⟨?_, hnone⟩
    rw [List.filter_eq_nil_iff]
    intro f hf hfname
    exact hname (List.mem_map.mpr ⟨f, hf, by simpa using hfname⟩)

end Overrides

/-! ## Statements -/

/-- Lines behind a first line. -/
theorem intercalate_lineFeed (first : String) (rest : List String) :
    "\n".intercalate (first :: rest) = first ++ String.join (rest.map ("\n" ++ ·)) := by
  induction rest generalizing first with
  | nil => simp
  | cons second rest ih =>
    rw [String.intercalate_cons_cons, ih, List.map_cons, String.join_cons]
    simp only [String.append_assoc]

theorem Statement.text_store (i : NodeId) (path : String) (e : Entry) :
    (Statement.store i path e).text = path ++ "._" ++ e.name ++ " = " ++ e.text := by
  have hfield : "._" = "." ++ "_" := rfl
  simp only [Statement.text, fieldName, hfield, String.append_assoc]

namespace Overrides

/-- The `statements` construct an instance with the entries `keywords` as keywords of the call of
    its class, and with the entries `stored` stored behind it. -/
structure Merged (o : Overrides) (className : String) (statements : List Statement)
    (keywords stored : List Entry) : Prop where
  shape : statements =
    .construct o.node o.path className keywords :: stored.map (.store o.node o.path)
  text : constructionText statements =
    o.path ++ " = " ++ className ++ "(" ++
      ", ".intercalate (keywords.map fun e => "_" ++ e.name ++ "=" ++ e.text) ++ ")" ++
      String.join (stored.map fun e => "\n" ++ o.path ++ "._" ++ e.name ++ " = " ++ e.text)
  /-- Stored are the defaults that read parameters, in order. -/
  deferred : stored = o.distinct.filter fun e => e.origin = .default ∧ e.readsParameters
  /-- The keywords are all others, in order. -/
  immediate : keywords = o.distinct.filter fun e => ¬ (e.origin = .default ∧ e.readsParameters)
  /-- Every entry that counts is written once. -/
  once : (keywords ++ stored).Perm o.distinct
  /-- No two of them have one name. -/
  names : ((keywords ++ stored).map (·.name)).Nodup

theorem merged_construction (o : Overrides) (className : String) :
    o.Merged className (o.construction .bulkMerge className) (immediate o.distinct)
      (deferred o.distinct) := by
  have hstored : deferred o.distinct =
      o.distinct.filter fun e => e.origin = .default ∧ e.readsParameters :=
    List.filter_congr fun e _ => by simp [isDeferred]
  have hkeywords : immediate o.distinct =
      o.distinct.filter fun e => ¬ (e.origin = .default ∧ e.readsParameters) :=
    List.filter_congr fun e _ => by simp [isDeferred]
  have honce : (immediate o.distinct ++ deferred o.distinct).Perm o.distinct :=
    List.perm_append_comm.trans (List.filter_append_perm isDeferred o.distinct)
  refine ⟨construction_merged o className, ?_, hstored, hkeywords, honce, ?_⟩
  · rw [construction_merged, constructionText, List.map_cons, intercalate_lineFeed, List.map_map,
      List.map_map]
    simp only [Function.comp_def, Statement.text_store, ← String.append_assoc]
    rfl
  · exact (honce.map _).nodup_iff.mpr o.nodup_names_distinct

end Overrides

end Script

namespace Program

open Script

/-- Whatever the entries of an instance are, the last one of each name counts, and in the bulk-merge
    style it is written once. -/
theorem entries_written_once (o : Overrides) :
    (∃ positions, o.Collapsed positions) ∧
      ∀ {p : Program} {n : Assembly.Node} {d : Catalog.Reactor}, p.options.style = .bulkMerge →
        p.assembly.node? o.node = some n → p.catalog.reactor? n.reactor = some d →
        ∃ statements keywords stored, p.construction? o = some statements ∧
          o.Merged (className d.name) statements keywords stored := by
  refine ⟨o.exists_collapsed, ?_⟩
  intro p n d hstyle hn hd
  refine ⟨_, _, _, ?_, o.merged_construction (className d.name)⟩
  simp [construction?, className?, hn, hd, hstyle]

/-- A root whose class is called in the bulk-merge style. -/
def mergedProgram : Program :=
  { catalog := ({} : Catalog).declare "A" .nowhere
    assembly := ({} : Assembly).addRoot "main" ⟨0⟩ .nowhere
    options := { Options.standard with style := .bulkMerge } }

/-- Entries with two names that occur twice, once with a default in front of an override. -/
def repeatedEntries : Overrides :=
  { node := ⟨0⟩
    path := "main_lf"
    entries :=
      [⟨⟨0⟩, "x", [.constant "1"], .default, "1"⟩,
       ⟨⟨1⟩, "n", [.constant "0"], .override, "0"⟩,
       ⟨⟨2⟩, "y", [.constant "3"], .default, "3"⟩,
       ⟨⟨3⟩, "n", [.own ⟨⟨0⟩, "main_lf", "x"⟩], .default, "main_lf.x"⟩,
       ⟨⟨4⟩, "x", [.constant "2"], .override, "2"⟩] }

theorem entries_written_once_repeated :
    mergedProgram.options.style = .bulkMerge ∧
      ∃ n d, mergedProgram.assembly.node? repeatedEntries.node = some n ∧
        mergedProgram.catalog.reactor? n.reactor = some d ∧
        (∃ positions, repeatedEntries.Collapsed positions) ∧
        ∃ statements keywords stored,
          mergedProgram.construction? repeatedEntries = some statements ∧
          repeatedEntries.Merged (className d.name) statements keywords stored ∧
          constructionText statements =
            "main_lf = _A(_y=3, _x=2)\nmain_lf._n = main_lf.x" := by
  obtain ⟨hcollapsed, hmerged⟩ := entries_written_once repeatedEntries
  obtain ⟨statements, keywords, stored, hstatements, h⟩ := @hmerged mergedProgram _ _ rfl rfl rfl
  refine ⟨rfl, _, _, rfl, rfl, hcollapsed, statements, keywords, stored, hstatements, h, ?_⟩
  cases hstatements
  decide

end Program

end Reactors
