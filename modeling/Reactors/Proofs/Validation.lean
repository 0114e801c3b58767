import Reactors.Proofs.Script.Emission
import Reactors.Validation

/-! # Validation covers emission

    Validation of a closed program ends.  It looks at every default and every assignment, emission
    only at those that count; so what emission reports, validation has reported before, in the same
    words.
-/

namespace Reactors.Program

open Script

variable {p : Program}

/-! ## Declarations -/

theorem exists_repetitions (hp : p.Closed) {r : ReactorId} (hr : p.catalog.HasReactor r) :
    ∃ pairs, p.catalog.repetitions? r = some pairs :=
  ⟨_, by simp [Catalog.repetitions?, hp.visible? hr]; rfl⟩

/-- The report of an own parameter of a reactor with an empty default. -/
def OwnReport (p : Program) (d : Catalog.Reactor) (e : Diagnostic) : Prop :=
  ∃ i ∈ d.params, ∃ q, p.catalog.parameter? i = some q ∧ q.default = [] ∧ e = hollowReport q

theorem exists_reactorProblems (hp : p.Closed) {d : Catalog.Reactor}
    (hd : p.catalog.reactor? d.id = some d) :
    ∃ ds, p.reactorProblems? d = some ds ∧ ∀ e, p.OwnReport d e → e ∈ ds := by
  obtain ⟨pairs, hpairs⟩ := exists_repetitions hp (Catalog.hasReactor_of_some hd)
  obtain ⟨own, hown⟩ := Lookup.exists_mapM fun i hi =>
    Catalog.hasParameter_iff.mp (hp.catalog.param hd i hi)
  refine ⟨_, by simp [reactorProblems?, hpairs, hown]; rfl, ?_⟩
  intro e ⟨i, hi, q, hq, hnil, he⟩
  obtain ⟨x, hx, hix⟩ := Lookup.exists_mem_of_mapM hown hi
  rw [hq] at hix
  cases hix
  have hhollow : q ∈ own.filter fun q => q.default.isEmpty := by
    rw [List.mem_filter]
    exact ⟨hx, by simp [hnil]⟩
  rw [he]
  exact List.mem_append_right _ (List.mem_map.mpr ⟨q, hhollow, rfl⟩)

theorem exists_catalogProblems (hp : p.Closed) :
    ∃ ds, p.catalogProblems? = some ds ∧
      ∀ d ∈ p.catalog.reactors.toList, ∀ e, p.OwnReport d e → e ∈ ds := by
  obtain ⟨problems, hproblems, hall⟩ := Lookup.exists_mapM_flatten p.OwnReport fun d hd =>
    exists_reactorProblems hp (found_reactor hp hd)
  exact ⟨problems.flatten, by simp [catalogProblems?, hproblems], hall⟩

/-! ## Assignments -/

theorem exists_foreignForward (hp : p.Closed) (n : Assembly.Node) (span : Span)
    {outer : ReactorId} (houter : p.catalog.HasReactor outer) {i : ParamId}
    (hi : p.catalog.HasParameter i) : ∃ d, p.foreignForward? n span outer i = some d := by
  obtain ⟨q, hq⟩ := Catalog.hasParameter_iff.mp hi
  obtain ⟨owner, howner⟩ := Catalog.hasReactor_iff.mp (hp.catalog.owner hq)
  obtain ⟨reader, hreader⟩ := Catalog.hasReactor_iff.mp houter
  exact ⟨_, by simp only [foreignForward?, hq, howner, hreader, Option.bind_eq_bind,
    Option.bind_some]; rfl⟩

theorem exists_foreignForwards (hp : p.Closed) (n : Assembly.Node) (span : Span)
    {outer : ReactorId} (houter : p.catalog.HasReactor outer) (ids : List ParamId)
    (hids : ∀ i ∈ ids, p.catalog.HasParameter i) :
    ∃ ds, p.foreignForwards? n span outer ids = some ds := by
  have hvisible := hp.catalog.visibleIds?_eq houter
  induction ids with
  | nil => exact ⟨[], rfl⟩
  | cons i ids ih =>
    obtain ⟨rest, hrest⟩ := ih fun j hj => hids j (by simp [hj])
    obtain ⟨d, hd⟩ := exists_foreignForward hp n span houter (hids i (by simp))
    unfold foreignForwards?
    rw [hvisible, hrest]
    by_cases hmem : i ∈ (p.catalog.lineage outer).flatMap p.catalog.own
    · exact ⟨rest, if_pos hmem⟩
    · have hstep : (if i ∈ (p.catalog.lineage outer).flatMap p.catalog.own then some rest
          else (p.foreignForward? n span outer i).bind fun d => some (d :: rest)) =
          some (d :: rest) := by
        rw [if_neg hmem, hd]
        rfl
      exact ⟨d :: rest, hstep⟩

/-- The report of what is wrong with an assignment of `n`. -/
def SettingReport (p : Program) (n : Assembly.Node) (x : Assignment) (e : Diagnostic) : Prop :=
  ∃ q f, p.catalog.parameter? x.target = some q ∧ settingFault? n q x = some f ∧
    e = f.toDiagnostic

theorem exists_assignmentProblems (hp : p.Closed) {n : Assembly.Node}
    (hn : p.assembly.node? n.id = some n) {x : Assignment} (hx : x ∈ n.assignments) :
    ∃ ds, p.assignmentProblems? n n.parent x = some ds ∧ ∀ e, p.SettingReport n x e → e ∈ ds := by
  obtain ⟨q, hq⟩ := Catalog.hasParameter_iff.mp (hp.target hn x hx)
  suffices h : ∃ ds, p.assignmentProblems? n n.parent x = some ds ∧
      ∀ f, settingFault? n q x = some f → f.toDiagnostic ∈ ds by
    obtain ⟨ds, hds, hall⟩ := h
    refine ⟨ds, hds, ?_⟩
    intro e ⟨q', f, hq', hf, he⟩
    rw [hq] at hq'
    cases hq'
    exact he ▸ hall f hf
  have hrefs : ∀ i ∈ x.values.filterMap Value.reference?, p.catalog.HasParameter i := by
    intro i hi
    obtain ⟨v, hv, hvi⟩ := List.mem_filterMap.mp hi
    exact hp.values hn x hx v hv i hvi
  unfold assignmentProblems? settingFault?
  rw [hq]
  by_cases hnil : x.values = []
  · exact ⟨_, by simp [hnil]; rfl, by simp [hnil]⟩
  · have hempty : x.values.isEmpty = false := by simpa using hnil
    simp only [Option.bind_eq_bind, Option.bind_some, hempty, Bool.false_eq_true, if_false, hnil]
    cases hpar : n.parent with
    | none =>
      cases hids : x.values.filterMap Value.reference? with
      | nil =>
        have hfree : ¬ ∃ v ∈ x.values, v.reference? ≠ none := by
          intro ⟨v, hv, href⟩
          exact href (List.filterMap_eq_nil_iff.mp hids v hv)
        exact ⟨[], rfl, by simp [hfree]⟩
      | cons i ids =>
        -- the root refers to parameters
        refine ⟨_, rfl, ?_⟩
        intro f hf
        split at hf
        · cases hf
          simp
        · cases hf
    | some outer =>
      obtain ⟨m, hm, _⟩ := hp.assembly.parent hn hpar
      obtain ⟨ds, hds⟩ := exists_foreignForwards hp n x.span (hp.reactor hm) _ hrefs
      by_cases hids : (x.values.filterMap Value.reference?).isEmpty = true
      · exact ⟨[], by simp [hids], by simp⟩
      · exact ⟨ds, by simp [hids, hm, hds], by simp⟩

theorem exists_nodeProblems (hp : p.Closed) {n : Assembly.Node}
    (hn : p.assembly.node? n.id = some n) :
    ∃ ds, p.nodeProblems? n = some ds ∧
      ∀ e, (∃ x ∈ n.assignments, p.SettingReport n x e) → e ∈ ds := by
  obtain ⟨problems, hproblems, hall⟩ := Lookup.exists_mapM_flatten (p.SettingReport n) fun x hx =>
    exists_assignmentProblems hp hn hx
  refine ⟨problems.flatten, by simp [nodeProblems?, Assembly.ancestor?_one hn, hproblems], ?_⟩
  intro e ⟨x, hx, he⟩
  exact hall x hx e he

/-! ## The whole program -/

theorem exists_assemblyProblems (hp : p.Closed) :
    ∃ ds, p.assemblyProblems? = some ds ∧
      ∀ n ∈ p.nodesOf, ∀ e, (∃ x ∈ n.assignments, p.SettingReport n x e) → e ∈ ds := by
  unfold assemblyProblems?
  cases h : p.assembly.root? with
  | none => exact ⟨[], rfl, by simp [nodesOf, h]⟩
  | some root =>
    obtain ⟨problems, hproblems, hall⟩ := Lookup.exists_mapM_flatten
      (fun n e => ∃ x ∈ n.assignments, p.SettingReport n x e) fun n hn =>
        exists_nodeProblems hp (hp.found hn)
    exact ⟨problems.flatten, by simp [(hp.preorder h).1, hproblems], hall⟩

/-- What is wrong with a slot is wrong with the default or the assignment it comes from. -/
theorem slotFault?_cases {n : Assembly.Node} {q : Catalog.Parameter} {f : ParameterFault}
    (h : slotFault? n q = some f) :
    (q.default = [] ∧ f = .emptyInitializer q.name .default q.span) ∨
      ∃ x ∈ n.assignments, x.target = q.id ∧ settingFault? n q x = some f := by
  unfold slotFault? at h
  cases hx : Assembly.lastSetting? q.id n.assignments with
  | some x =>
    have hmem : x ∈ n.assignments := List.mem_reverse.mp (List.mem_of_find?_eq_some hx)
    have htarget : x.target = q.id := by simpa using List.find?_some hx
    rw [hx] at h
    exact .inr ⟨x, hmem, htarget, h⟩
  | none =>
    rw [hx] at h
    dsimp only at h
    split at h
    · next hnil =>
      cases h
      exact .inl ⟨hnil, rfl⟩
    · cases h

/-- A visible parameter is an own one of some reactor. -/
theorem own_of_visibleOf (hp : p.Closed) {r : ReactorId} (hr : p.catalog.HasReactor r)
    {q : Catalog.Parameter} (hq : q ∈ p.visibleOf r) :
    ∃ d ∈ p.catalog.reactors.toList, ∃ i ∈ d.params, p.catalog.parameter? i = some q := by
  obtain ⟨s, _, i, hi, hiq⟩ := (hp.catalog.mem_visible_iff hr (hp.visible? hr)).mp hq
  unfold Catalog.own at hi
  split at hi
  · next d hd => exact ⟨d, Catalog.mem_reactors hd, i, hi, hiq⟩
  · simp at hi

/-- Validation ends, and has all that emission reports. -/
theorem validate_covers_reports (hp : p.Closed) :
    ∃ vs, p.validate? = some vs ∧
      (∀ d ∈ p.catalog.reactors.toList, ∀ e ∈ p.classReports d, e ∈ vs) ∧
      ∀ e ∈ p.slotsReports, e ∈ vs := by
  obtain ⟨cs, hcs, hown⟩ := exists_catalogProblems hp
  obtain ⟨bs, hbs, hsettings⟩ := exists_assemblyProblems hp
  have hdefault : ∀ r q, p.catalog.HasReactor r → q ∈ p.visibleOf r → q.default = [] →
      hollowReport q ∈ cs := by
    intro r q hr hq hnil
    obtain ⟨d, hd, i, hi, hiq⟩ := own_of_visibleOf hp hr hq
    exact hown d hd _ ⟨i, hi, q, hiq, hnil, rfl⟩
  refine ⟨cs ++ bs, by simp [validate?, hcs, hbs], ?_, ?_⟩
  · intro d hd e he
    obtain ⟨q, hq, rfl⟩ := List.mem_map.mp he
    have hfind := Option.mem_toList.mp hq
    have hmem := List.mem_of_find?_eq_some hfind
    have hnil : q.default = [] := by simpa using List.find?_some hfind
    have hr := Catalog.hasReactor_of_some (found_reactor hp hd)
    exact List.mem_append_left _ (hdefault d.id q hr hmem hnil)
  · intro e he
    obtain ⟨n, hn, he⟩ := List.mem_flatMap.mp he
    obtain ⟨q, hq, he⟩ := List.mem_flatMap.mp he
    obtain ⟨f, hf, rfl⟩ := List.mem_map.mp he
    have hr := hp.reactor (hp.found hn)
    rcases slotFault?_cases (Option.mem_toList.mp hf) with ⟨hnil, rfl⟩ | ⟨x, hx, htarget, hf⟩
    · exact List.mem_append_left _ (hdefault n.reactor q hr hq hnil)
    · -- validation looks at every assignment, so also at the one that counts
      have hq' : p.catalog.parameter? x.target = some q :=
        htarget ▸ hp.parameter?_of_visibleOf hr hq
      exact List.mem_append_right _ (hsettings n hn _ ⟨x, hx, q, f, hq', hf, rfl⟩)

/-! ## Options -/

section options
variable (o : Options)

theorem foreignForwards?_withOptions (n : Assembly.Node) (span : Span) (outer : ReactorId)
    (ids : List ParamId) :
    ({ p with options := o } : Program).foreignForwards? n span outer ids =
      p.foreignForwards? n span outer ids := by
  induction ids with
  | nil => rfl
  | cons i ids ih =>
    unfold foreignForwards?
    rw [ih]
    rfl

theorem assignmentProblems?_withOptions (n : Assembly.Node) (scope : Option NodeId)
    (x : Assignment) :
    ({ p with options := o } : Program).assignmentProblems? n scope x =
      p.assignmentProblems? n scope x := by
  unfold assignmentProblems?
  simp only [foreignForwards?_withOptions]

theorem nodeProblems?_withOptions :
    ({ p with options := o } : Program).nodeProblems? = p.nodeProblems? := by
  funext n
  unfold nodeProblems?
  simp only [funext (assignmentProblems?_withOptions o n _)]

/-- Validation does not look at the options. -/
theorem validate?_withOptions : ({ p with options := o } : Program).validate? = p.validate? := by
  have hassembly : ({ p with options := o } : Program).assemblyProblems? = p.assemblyProblems? := by
    unfold assemblyProblems?
    rw [nodeProblems?_withOptions]
  unfold validate?
  rw [hassembly]
  rfl

end options

end Reactors.Program
