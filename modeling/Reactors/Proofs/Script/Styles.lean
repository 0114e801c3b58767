import Reactors.Proofs.Script.Entries
import Reactors.Proofs.Script.Execution
import Reactors.Proofs.Valid

/-! # The styles make the same objects

    The targeted style assigns the overrides behind the constructor, the bulk-merge style has the
    constructor store them, together with the defaults that read nothing.  Both leave the defaults
    that read parameters to the end.  At that point all other fields hold the same in both styles:
    overrides read another instance only, and the constructor has stored the defaults already.
-/

namespace Reactors

namespace Script

open Objects

/-! ## Entries of different names -/

theorem isDeferred_iff {e : Entry} :
    Overrides.isDeferred e = true ↔ e.origin = .default ∧ e.readsParameters = true := by
  simp [Overrides.isDeferred]

/-- The overrides of a list of entries, in order. -/
def overriding (es : List Entry) : List Entry := es.filter fun e => e.origin = .override

/-- The defaults that read parameters, in order. -/
def deferred (es : List Entry) : List Entry := es.filter Overrides.isDeferred

/-- All other entries. -/
def immediate (es : List Entry) : List Entry := es.filter fun e => !Overrides.isDeferred e

theorem construction_targeted (o : Overrides) (className : String) :
    o.construction .targeted className = .construct o.node o.path className [] ::
      (overriding o.entries ++ deferred o.entries).map (.store o.node o.path) := by
  have hover : (o.entries.filter Entry.needsInjection).filter (fun e => e.origin = .override) =
      overriding o.entries := by
    rw [List.filter_filter]
    apply List.filter_congr
    intro e _
    cases ho : e.origin <;> simp [Entry.needsInjection, ho]
  have hdefer : (o.entries.filter Entry.needsInjection).filter
      (fun e => !decide (e.origin = .override)) = deferred o.entries := by
    rw [List.filter_filter]
    apply List.filter_congr
    intro e _
    unfold Entry.needsInjection Overrides.isDeferred
    cases e.origin <;> simp
  unfold Overrides.construction
  simp only [List.partition_eq_filter_filter, hover, Function.comp_def, hdefer]

theorem construction_merged (o : Overrides) (className : String) :
    o.construction .bulkMerge className =
      .construct o.node o.path className (immediate o.distinct) ::
        (deferred o.distinct).map (.store o.node o.path) := by
  unfold Overrides.construction
  simp only [List.partition_eq_filter_filter, Function.comp_def]
  rfl

theorem construction_bulkMerge {o : Overrides} (hnd : (o.entries.map (·.name)).Nodup)
    (className : String) :
    o.construction .bulkMerge className =
      .construct o.node o.path className (immediate o.entries) ::
        (deferred o.entries).map (.store o.node o.path) := by
  rw [construction_merged, Overrides.distinct_eq, lastOfEachName_of_nodup hnd]

theorem overriding_sublist (es : List Entry) : (overriding es).Sublist (immediate es) := by
  have hsub : overriding es = (immediate es).filter fun e => e.origin = .override := by
    unfold overriding immediate
    rw [List.filter_filter]
    apply List.filter_congr
    intro e _
    unfold Overrides.isDeferred
    cases e.origin <;> simp
  rw [hsub]
  exact List.filter_sublist

/-! ## Runs -/

theorem runFrom_stores (m : Module) (h : Objects) (i : NodeId) (path : String) (es : List Entry) :
    m.runFrom h (es.map (.store i path)) = some (es.foldl (Objects.store i) h) := by
  induction es generalizing h with
  | nil => rfl
  | cons e es ih =>
    show m.runFrom (h.store i e) (es.map (.store i path)) = _
    rw [ih]
    rfl

theorem runFrom_append (m : Module) (h : Objects) (ss ts : List Statement) :
    m.runFrom h (ss ++ ts) = (m.runFrom h ss).bind fun h' => m.runFrom h' ts := by
  unfold Module.runFrom
  rw [List.foldlM_append]
  rfl

theorem runLines_other_node {fields : List Line} {h : Objects} {i j : NodeId} (hne : j ≠ i)
    (kws : List (String × Datum)) : h.runLines i kws fields j = h j := by
  induction fields generalizing h with
  | nil => rfl
  | cons l ls ih =>
    show (h.runLine i kws l).runLines i kws ls j = h j
    rw [ih]
    cases l with
    | comment text => rfl
    | assign q name type terms value => exact put_other_node hne
    | mergeKeywords => exact putAll_other_node hne

/-- Fields that are assigned from terms do not depend on the keywords. -/
theorem runLines_keywords {fields : List Line} (hassign : ∀ l ∈ fields, l ≠ .mergeKeywords)
    (h : Objects) (i : NodeId) (kws : List (String × Datum)) :
    h.runLines i kws fields = h.runLines i [] fields := by
  induction fields generalizing h with
  | nil => rfl
  | cons l ls ih =>
    have hl : h.runLine i kws l = h.runLine i [] l := by
      cases l with
      | mergeKeywords => exact absurd rfl (hassign .mergeKeywords (by simp))
      | _ => rfl
    show (h.runLine i kws l).runLines i kws ls = (h.runLine i [] l).runLines i [] ls
    rw [hl]
    exact ih (fun l hl => hassign l (by simp [hl])) _

/-- Before the deferred defaults, both styles have the same fields: the defaults that read nothing
    are in the fields already. -/
theorem foldl_store_overriding {i : NodeId} {es : List Entry} {made h : Objects}
    (hnd : (es.map (·.name)).Nodup)
    (hout : ∀ e ∈ es, e.origin = .override → ∀ t ∈ e.terms, Outside i t)
    (hplain : ∀ e ∈ es, e.origin = .default → e.readsParameters = false →
      made i e.name = h.value i e.terms)
    (hmade : ∀ j, j ≠ i → made j = h j) :
    (overriding es).foldl (Objects.store i) made =
      made.putAll i ((immediate es).map fun e => (e.name, h.value i e.terms)) := by
  have houtside : ∀ e ∈ overriding es, ∀ t ∈ e.terms, Outside i t := by
    intro e he
    obtain ⟨hmem, horigin⟩ := List.mem_filter.mp he
    exact hout e hmem (of_decide_eq_true horigin)
  rw [stores_eq_putAll (overriding es) houtside hmade]
  apply putAll_eq_of_subset (hnd.sublist (List.filter_sublist.map _)) (overriding_sublist es)
  intro e he hnot
  obtain ⟨hmem, hdeferred⟩ := List.mem_filter.mp he
  -- an immediate entry that is no override is a default that reads nothing
  have horigin : e.origin = .default := by
    cases ho : e.origin with
    | default => rfl
    | override => exact absurd (List.mem_filter.mpr ⟨hmem, by simp [ho]⟩) hnot
  have hreads : e.readsParameters = false := by
    cases hr : e.readsParameters with
    | false => rfl
    | true => simp [Overrides.isDeferred, horigin, hr] at hdeferred
  exact hplain e hmem horigin hreads

/-- What the two styles make of one instance.  The class has `fields` in both, and where a default
    reads nothing the field holds it behind them. -/
theorem construction_agrees {mT mB : Module} {o : Overrides} {className comment : String}
    {bT bB : ClassBlock} {fields : List Line}
    (hT : mT.class? className = some bT) (hB : mB.class? className = some bB)
    (hbT : bT.skeleton = .comment comment :: fields ++ mergeLines .targeted)
    (hbB : bB.skeleton = .comment comment :: fields ++ mergeLines .bulkMerge)
    (hassign : ∀ l ∈ fields, l ≠ .mergeKeywords)
    (hnd : (o.entries.map (·.name)).Nodup)
    (hout : ∀ e ∈ o.entries, e.origin = .override → ∀ t ∈ e.terms, Outside o.node t)
    (hplain : ∀ e ∈ o.entries, e.origin = .default → e.readsParameters = false →
      ∀ h h' : Objects, h.runLines o.node [] fields o.node e.name = h'.value o.node e.terms)
    (h : Objects) :
    ∃ h', mT.runFrom h (o.construction .targeted className) = some h' ∧
      mB.runFrom h (o.construction .bulkMerge className) = some h' := by
  let made := (h.fresh o.node).runLines o.node [] fields
  let given : List (String × Datum) :=
    (immediate o.entries).map fun e => (e.name, h.value o.node e.terms)
  have hmade : ∀ j, j ≠ o.node → made j = h j := by
    intro j hj
    show (h.fresh o.node).runLines o.node [] fields j = h j
    rw [runLines_other_node hj, fresh_other_node hj]
  have hconstructT : mT.runStatement h (.construct o.node o.path className []) = some made := by
    rw [Module.runStatement_construct hT, hbT, mergeLines, List.append_nil]
    rfl
  have hconstructB : mB.runStatement h
      (.construct o.node o.path className (immediate o.entries)) =
        some (made.putAll o.node given) := by
    rw [Module.runStatement_construct hB, hbB]
    show some ((h.fresh o.node).runLines o.node given (fields ++ mergeLines .bulkMerge)) = _
    unfold runLines
    rw [List.foldl_append]
    show some (((h.fresh o.node).runLines o.node given fields).putAll o.node given) = _
    rw [runLines_keywords hassign]
  have hsame : (overriding o.entries).foldl (Objects.store o.node) made =
      made.putAll o.node given :=
    foldl_store_overriding hnd hout (fun e he ho hr => hplain e he ho hr _ _) hmade
  refine ⟨(deferred o.entries).foldl (Objects.store o.node) (made.putAll o.node given), ?_, ?_⟩
  · rw [construction_targeted, List.map_append]
    show (mT.runStatement h _).bind (fun h' => mT.runFrom h' _) = _
    rw [hconstructT, Option.bind_some, runFrom_append, runFrom_stores, Option.bind_some, hsame,
      runFrom_stores]
  · rw [construction_bulkMerge hnd]
    show (mB.runStatement h _).bind (fun h' => mB.runFrom h' _) = _
    rw [hconstructB, Option.bind_some, runFrom_stores]

end Script

namespace Program

open Script

variable {p : Program}

/-! ## Valid programs -/

/-- Parameters none of which repeats a name have different names. -/
theorem nodup_of_repetitionsFrom {firsts qs : List Catalog.Parameter}
    (h : Catalog.repetitionsFrom firsts qs = []) :
    (qs.map (·.name)).Nodup ∧ ∀ q ∈ qs, ∀ f ∈ firsts, f.name ≠ q.name := by
  induction qs generalizing firsts with
  | nil => simp
  | cons q qs ih =>
    unfold Catalog.repetitionsFrom at h
    split at h
    · simp at h
    · next hfind =>
      have hfree : ∀ f ∈ firsts, f.name ≠ q.name := by simpa using hfind
      obtain ⟨hnd, hrest⟩ := ih h
      refine ⟨?_, ?_⟩
      · rw [List.map_cons, List.nodup_cons]
        refine ⟨?_, hnd⟩
        intro hmem
        obtain ⟨x, hx, hname⟩ := List.mem_map.mp hmem
        exact hrest x hx q (by simp) hname.symm
      · intro x hx f hf
        rcases List.mem_cons.mp hx with rfl | hx
        · exact hfree f hf
        · exact hrest x hx f (by simp [hf])

/-- Where validation reports nothing, the visible parameters of a reactor have different names. -/
theorem nodup_visibleOf (hp : p.Closed) (hvalid : p.validate? = some []) {r : ReactorId}
    (hr : p.catalog.HasReactor r) : ((p.visibleOf r).map (·.name)).Nodup := by
  obtain ⟨cs, hcs, hvalid⟩ := Option.bind_eq_some_iff.mp hvalid
  obtain ⟨bs, hbs, hvalid⟩ := Option.bind_eq_some_iff.mp hvalid
  obtain rfl : cs = [] := (List.append_eq_nil_iff.mp (Option.some.inj hvalid)).1
  obtain ⟨problems, hproblems, hflat⟩ := Option.bind_eq_some_iff.mp hcs
  obtain ⟨d, hd⟩ := Catalog.hasReactor_iff.mp hr
  have hmem := Catalog.mem_reactors hd
  obtain ⟨ds, hds, hdd⟩ := Lookup.exists_mem_of_mapM hproblems hmem
  obtain rfl : ds = [] := List.flatten_eq_nil_iff.mp (Option.some.inj hflat) ds hds
  obtain ⟨repeated, hrepeated, hrest⟩ := Option.bind_eq_some_iff.mp hdd
  obtain ⟨own, hown, hnil⟩ := Option.bind_eq_some_iff.mp hrest
  have hnone : repeated = [] := by
    have := (List.append_eq_nil_iff.mp (Option.some.inj hnil)).1
    simpa using this
  -- a repeated name would have been reported at the reactor
  rw [hp.catalog.reactor_id hd] at hrepeated
  unfold Catalog.repetitions? at hrepeated
  rw [hp.visible? hr, hnone] at hrepeated
  exact (nodup_of_repetitionsFrom (Option.some.inj hrepeated)).1

/-! ## Classes by name -/

/-- The last element with a key is the only one where keys are different. -/
theorem find?_reverse_of_nodup {α : Type} {xs : List α} (key : α → String)
    (hnd : (xs.map key).Nodup) {x : α} (hx : x ∈ xs) :
    xs.reverse.find? (fun y => key y == key x) = some x := by
  have hsome : (xs.reverse.find? fun y => key y == key x).isSome := by
    rw [List.find?_isSome]
    exact ⟨x, by simpa using hx, by simp⟩
  obtain ⟨y, hy⟩ := Option.isSome_iff_exists.mp hsome
  have hmem : y ∈ xs := List.mem_reverse.mp (List.mem_of_find?_eq_some hy)
  have hkey : key y = key x := by simpa using List.find?_some hy
  rw [hy, List.inj_on_of_nodup_map hnd hmem hx hkey]

theorem className_injective : Function.Injective className := by
  intro a b h
  have hlist := congrArg String.toList h
  simp only [className, String.toList_append] at hlist
  exact String.toList_inj.mp (List.append_cancel_left hlist)

/-- The class of an instance is the class of its reactor. -/
theorem class?_moduleOf (hdistinct : p.catalog.names.Nodup)
    (hclasses : ∀ d ∈ p.catalog.reactors.toList, p.classReports d = []) (header : List String)
    {n : Assembly.Node} {d : Catalog.Reactor} (hd : p.catalog.reactor? n.reactor = some d) :
    (p.moduleOf header).class? (p.classOf n) = some (p.blockOf d) := by
  have hname : p.classOf n = (p.blockOf d).name := by
    simp [classOf, className?, hd, blockOf]
  have hmem := Catalog.mem_reactors hd
  have hnd : ((p.catalog.reactors.toList.map p.blockOf).map (·.name)).Nodup := by
    rw [List.map_map]
    have hkeys : p.catalog.reactors.toList.map ((·.name) ∘ p.blockOf) =
        p.catalog.names.map className := by
      simp [Catalog.names, blockOf]
    rw [hkeys]
    exact hdistinct.map className_injective
  unfold Module.class?
  rw [moduleOf_classes hclasses, hname]
  exact find?_reverse_of_nodup ClassBlock.name hnd (List.mem_map_of_mem hmem)

/-! ## Fields of a class -/

theorem runLines_of_not_mem {qs : List Catalog.Parameter} {name : String}
    (hnot : name ∉ qs.map (·.name)) (h : Objects) (i : NodeId) :
    h.runLines i [] (qs.map p.fieldOf) i name = h i name := by
  induction qs generalizing h with
  | nil => rfl
  | cons q qs ih =>
    rw [List.map_cons, List.mem_cons, not_or] at hnot
    show (h.runLine i [] (p.fieldOf q)).runLines i [] (qs.map p.fieldOf) i name = h i name
    rw [ih hnot.2]
    exact Objects.put_of_ne (.inr hnot.1)

/-- The field of a default that reads nothing holds the default when the constructor is done. -/
theorem runLines_field {qs : List Catalog.Parameter} (hnd : (qs.map (·.name)).Nodup)
    {q : Catalog.Parameter} (hq : q ∈ qs)
    (hconst : (q.default.map p.classExpr).any Expr.isRead = false) (h h' : Objects) (i : NodeId) :
    h.runLines i [] (qs.map p.fieldOf) i q.name = h'.value i (q.default.map p.classExpr) := by
  induction qs generalizing h with
  | nil => simp at hq
  | cons x qs ih =>
    rw [List.map_cons, List.nodup_cons] at hnd
    show (h.runLine i [] (p.fieldOf x)).runLines i [] (qs.map p.fieldOf) i q.name = _
    -- the field is set once, and no later line writes over it
    rcases List.mem_cons.mp hq with rfl | hq
    · rw [runLines_of_not_mem hnd.1]
      show h.put i q.name (h.value i (q.default.map p.classExpr)) i q.name = _
      rw [Objects.put_self]
      exact Objects.value_constant hconst i i
    · exact ih hnd.2 hq _

/-- A default that reads nothing is the same in the class and on an instance. -/
theorem ownExpr_eq_classExpr {i : NodeId} {vs : List Value}
    (hconst : (vs.map (p.ownExpr i)).any Expr.isRead = false) :
    vs.map (p.ownExpr i) = vs.map p.classExpr := by
  apply List.map_congr_left
  intro v hv
  have hread := List.any_eq_false.mp hconst (p.ownExpr i v) (List.mem_map_of_mem hv)
  cases v with
  | constant k => rfl
  | param q => simp [ownExpr, Expr.isRead] at hread

/-! ## Instances -/

/-- An override reads the instance around, which is another one. -/
theorem outside_of_override {n : Assembly.Node} (hparent : n.parent ≠ some n.id)
    {q : Catalog.Parameter} (hq : slotReports n q = [])
    (horigin : (p.entryAt n q).origin = .override) :
    ∀ t ∈ (p.entryAt n q).terms, Objects.Outside n.id t := by
  have hfault : slotFault? n q = none := by simpa [slotReports] using hq
  unfold slotFault? at hfault
  unfold entryAt resolutionAt at horigin ⊢
  cases hx : Assembly.lastSetting? q.id n.assignments with
  | none => simp [hx] at horigin
  | some x =>
    rw [hx] at hfault
    intro t ht
    simp only at ht
    obtain ⟨v, hv, rfl⟩ := List.mem_map.mp ht
    cases v with
    | constant k => trivial
    | param id =>
      cases hpar : n.parent with
      | none =>
        have hroot := (settingFault?_eq_none_iff.mp hfault).2 hpar _ hv
        simp [Value.reference?] at hroot
      | some outer =>
        rw [hpar] at hparent
        exact fun h => hparent (congrArg some h)

/-- A default is the same in the class and on an instance if it reads nothing. -/
theorem terms_of_default {n : Assembly.Node} {q : Catalog.Parameter}
    (horigin : (p.entryAt n q).origin = .default)
    (hreads : (p.entryAt n q).readsParameters = false) :
    (p.entryAt n q).terms = q.default.map p.classExpr := by
  unfold Entry.readsParameters at hreads
  unfold entryAt resolutionAt at horigin hreads ⊢
  cases hx : Assembly.lastSetting? q.id n.assignments with
  | some x => simp [hx] at horigin
  | none =>
    simp only [hx] at hreads ⊢
    exact ownExpr_eq_classExpr hreads

/-- The program with these options, save that the style is a given one. -/
def styled (p : Program) (o : Options) (style : Options.Style) : Program :=
  { p with options := { o with style } }

/-- Both styles make the same of one instance. -/
theorem node_agrees (hp : p.Closed) (hdistinct : p.catalog.names.Nodup)
    (hvalid : p.validate? = some []) (o : Options) (header : List String) {n : Assembly.Node}
    (hn : n ∈ p.nodesOf) (hparent : n.parent ≠ some n.id) (h : Objects) :
    ∃ h', ((p.styled o .targeted).moduleOf header).runFrom h
        ((p.styled o .targeted).statementsOf n) = some h' ∧
      ((p.styled o .bulkMerge).moduleOf header).runFrom h
        ((p.styled o .bulkMerge).statementsOf n) = some h' := by
  have hvalid' : ∀ style, (p.styled o style).validate? = some [] := fun style =>
    (validate?_withOptions _).trans hvalid
  have hp' : ∀ style, (p.styled o style).Closed := fun style => hp.withOptions _
  have hclasses : ∀ style, ∀ d ∈ p.catalog.reactors.toList,
      (p.styled o style).classReports d = [] := fun style =>
    (reports_eq_nil (hp' style) (hvalid' style) rfl).1
  have hfound := hp.found hn
  obtain ⟨d, hd⟩ := Catalog.hasReactor_iff.mp (hp.reactor hfound)
  have hdr : d.id = n.reactor := hp.catalog.reactor_id hd
  have hnd := nodup_visibleOf hp hvalid (hp.reactor hfound)
  have hreports := slotReports_of_valid (hp' .targeted) (hvalid' .targeted) rfl hn
  have hentries := entries_of_nil hreports
  have hT : ((p.styled o .targeted).moduleOf header).class? ((p.styled o .targeted).classOf n) =
      some ((p.styled o .targeted).blockOf d) :=
    class?_moduleOf (p := p.styled o .targeted) hdistinct (hclasses .targeted) header hd
  have hB : ((p.styled o .bulkMerge).moduleOf header).class? ((p.styled o .bulkMerge).classOf n) =
      some ((p.styled o .bulkMerge).blockOf d) :=
    class?_moduleOf (p := p.styled o .bulkMerge) hdistinct (hclasses .bulkMerge) header hd
  -- the classes differ in what follows the fields alone
  have hbT : ((p.styled o .targeted).blockOf d).skeleton =
      .comment "Define parameters and their default values" ::
        (p.visibleOf d.id).map (p.styled o .targeted).fieldOf ++ mergeLines .targeted := rfl
  have hbB : ((p.styled o .bulkMerge).blockOf d).skeleton =
      .comment "Define parameters and their default values" ::
        (p.visibleOf d.id).map (p.styled o .targeted).fieldOf ++ mergeLines .bulkMerge := rfl
  refine construction_agrees (o := (p.styled o .targeted).overridesOf n) hT hB hbT hbB
    ?_ ?_ ?_ ?_ h
  · intro l hl
    obtain ⟨q, _, rfl⟩ := List.mem_map.mp hl
    simp [fieldOf]
  · rw [hentries, List.map_map]
    exact hnd
  · intro e he horigin
    rw [hentries] at he
    obtain ⟨q, hq, rfl⟩ := List.mem_map.mp he
    exact outside_of_override hparent (hreports q hq) horigin
  · intro e he horigin hreads h h'
    rw [hentries] at he
    obtain ⟨q, hmem, rfl⟩ := List.mem_map.mp he
    have hterms := terms_of_default horigin hreads
    rw [hdr, hterms]
    exact runLines_field hnd hmem (hterms ▸ hreads) h h' n.id

/-! ## Modules -/

/-- Both styles make the same of instances one after the other. -/
theorem nodes_agree (hp : p.Closed) (hdistinct : p.catalog.names.Nodup)
    (hvalid : p.validate? = some []) (o : Options) (header : List String)
    (ns : List Assembly.Node) (hns : ∀ n ∈ ns, n ∈ p.nodesOf ∧ n.parent ≠ some n.id)
    (h : Objects) :
    ∃ h', ((p.styled o .targeted).moduleOf header).runFrom h
        (ns.flatMap (p.styled o .targeted).statementsOf) = some h' ∧
      ((p.styled o .bulkMerge).moduleOf header).runFrom h
        (ns.flatMap (p.styled o .bulkMerge).statementsOf) = some h' := by
  induction ns generalizing h with
  | nil => exact ⟨h, rfl, rfl⟩
  | cons n ns ih =>
    obtain ⟨hn, hparent⟩ := hns n (by simp)
    obtain ⟨h₁, hT, hB⟩ := node_agrees hp hdistinct hvalid o header hn hparent h
    obtain ⟨h₂, hT', hB'⟩ := ih (fun n hn => hns n (by simp [hn])) h₁
    refine ⟨h₂, ?_, ?_⟩
    · rw [List.flatMap_cons, runFrom_append, hT, Option.bind_some, hT']
    · rw [List.flatMap_cons, runFrom_append, hB, Option.bind_some, hB']

/-- No instance is its own parent. -/
theorem parent_ne_self (hp : p.Closed) {n : Assembly.Node} (hn : n ∈ p.nodesOf) :
    n.parent ≠ some n.id := by
  cases hroot : p.assembly.root? with
  | none => simp [nodesOf, hroot] at hn
  | some root =>
    rcases (hp.preorder hroot).2.parent n hn with ⟨_, hnone⟩ | ⟨m, _, hpar, hne⟩
    · simp [hnone]
    · rw [hpar]
      exact fun h => hne (Option.some.inj h)

/-- An accepted model about which validation reports nothing is emitted in both styles, under any
    options, and both modules make the same objects: every field of every instance ends with the
    same value. -/
theorem styles_agree {m : Model} {p : Program} (hload : m.elaborate = some (.ok p))
    (hvalid : p.validate? = some []) (o : Options) (header : List String) :
    ∃ mT mB objects, ((p.styled o .targeted).emit header).run = some (mT, []) ∧
      ((p.styled o .bulkMerge).emit header).run = some (mB, []) ∧
      mT.execute = some objects ∧ mB.execute = some objects := by
  obtain ⟨hloaded, _⟩ := Model.loaded_of_elaborate hload
  have hp := closed_of_loaded hloaded
  have hvalid' : ∀ style, (p.styled o style).validate? = some [] := fun style =>
    (validate?_withOptions _).trans hvalid
  have hemit : ∀ style, ((p.styled o style).emit header).run =
      some ((p.styled o style).moduleOf header, []) :=
    fun style => emit_of_valid (hp.withOptions _) (hvalid' style) rfl header
  obtain ⟨objects, hT, hB⟩ := nodes_agree hp hloaded.distinct hvalid o header p.nodesOf
    (fun n hn => ⟨hn, parent_ne_self hp hn⟩) .empty
  have hconstruction : ∀ style, ((p.styled o style).moduleOf header).construction.getD [] =
      p.nodesOf.flatMap (p.styled o style).statementsOf := by
    intro style
    show (p.assembly.root?.map _).getD [] = _
    cases hroot : p.assembly.root? with
    | none => simp [nodesOf, hroot]
    | some root => rfl
  refine ⟨_, _, objects, hemit .targeted, hemit .bulkMerge, ?_, ?_⟩
  · unfold Module.execute
    rw [hconstruction]
    exact hT
  · unfold Module.execute
    rw [hconstruction]
    exact hB

/-- A root with a child that has an override, which reads the root, and a default that reads the
    overridden parameter. -/
def forwarding : Model where
  options := .standard
  reactors :=
    [⟨"Main", [], [⟨"w", none, [.int 7], .nowhere⟩], .nowhere⟩,
     ⟨"Base", [],
      [⟨"x", none, [.int 1], .nowhere⟩, ⟨"n", none, [.param (.plain "x"), .int 2], .nowhere⟩],
      .nowhere⟩]
  main := ⟨"main", "Main", [],
    [⟨"c", "Base", [⟨"x", [.param (.plain "w")], .nowhere⟩], [], .nowhere⟩], .nowhere⟩

/-- The program of `forwarding`. -/
def forwardingProgram : Program where
  catalog :=
    { reactors := #[⟨⟨0⟩, "Main", [], [⟨0⟩], .nowhere⟩, ⟨⟨1⟩, "Base", [], [⟨1⟩, ⟨2⟩], .nowhere⟩]
      parameters := #[⟨⟨0⟩, ⟨0⟩, "w", none, [.constant (.int 7)], .nowhere⟩,
        ⟨⟨1⟩, ⟨1⟩, "x", none, [.constant (.int 1)], .nowhere⟩,
        ⟨⟨2⟩, ⟨1⟩, "n", none, [.param ⟨1⟩, .constant (.int 2)], .nowhere⟩] }
  assembly :=
    { nodes := #[⟨⟨0⟩, "main", ⟨0⟩, none, [⟨1⟩], [], .nowhere⟩,
        ⟨⟨1⟩, "c", ⟨1⟩, some ⟨0⟩, [], [⟨⟨1⟩, [.param ⟨0⟩], .nowhere⟩], .nowhere⟩] }

/-- In both styles the default comes out with the value of the root. -/
theorem styles_agree_forwarding :
    forwarding.elaborate = some (.ok forwardingProgram) ∧
      forwardingProgram.validate? = some [] ∧
      ∃ mT mB objects, ((forwardingProgram.styled .standard .targeted).emit []).run = some (mT, []) ∧
        ((forwardingProgram.styled .standard .bulkMerge).emit []).run = some (mB, []) ∧
        mT.execute = some objects ∧ mB.execute = some objects ∧
        objects ⟨1⟩ "n" = .tuple [.constant "7", .constant "2"] := by
  have hload : forwarding.elaborate = some (.ok forwardingProgram) := rfl
  have hvalid : forwardingProgram.validate? = some [] := rfl
  obtain ⟨mT, mB, objects, hT, hB, hrunT, hrunB⟩ := styles_agree hload hvalid .standard []
  refine ⟨hload, hvalid, mT, mB, objects, hT, hB, hrunT, hrunB, ?_⟩
  have hp := closed_of_loaded (Model.loaded_of_elaborate hload).1
  have hemit : ((forwardingProgram.styled .standard .targeted).emit []).run =
      some ((forwardingProgram.styled .standard .targeted).moduleOf [], []) :=
    emit_of_valid (hp.withOptions _) ((validate?_withOptions _).trans hvalid) rfl []
  rw [hT] at hemit
  cases hemit
  have hvalue : ((forwardingProgram.styled .standard .targeted).moduleOf []).execute.map
      (fun h => h ⟨1⟩ "n") = some (.tuple [.constant "7", .constant "2"]) := rfl
  rw [hrunT] at hvalue
  exact Option.some.inj hvalue

end Program

end Reactors
