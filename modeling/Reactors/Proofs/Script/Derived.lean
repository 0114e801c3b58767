import Reactors.Proofs.Script.Timeliness

/-! # What defaults see that read parameters

    The statements that construct an instance assign the overrides before the defaults that read
    parameters, which come at the end, in the order of the visible parameters.  So a default sees
    overrides, and it sees the defaults that read nothing.  It sees another default that reads
    parameters if that one stands before it.  If that one stands behind, the default keeps what the
    field held before.
-/

namespace Reactors

namespace Script

open Objects

/-! ## Statements of an instance -/

/-- Among the statements that construct the instance `i`, none writes a field that an earlier one
    has read. -/
def Settled (i : NodeId) (ss : List Statement) : Prop :=
  ss.Pairwise fun s t => ∀ a ∈ s.accesses, a.node = i → ∀ w ∈ t.writes, w.name ≠ a.name

/-- Overrides read other instances, and defaults read the instance itself. -/
structure ReadsApart (o : Overrides) : Prop where
  override : ∀ e ∈ o.entries, e.origin = .override → ∀ a ∈ e.accesses, a.node ≠ o.node
  default : ∀ e ∈ o.entries, e.origin = .default → ∀ a ∈ e.accesses, a.node = o.node

/-- What is not deferred reads no field of the instance. -/
theorem ReadsApart.apart {o : Overrides} (h : ReadsApart o) {e : Entry} (he : e ∈ o.entries)
    (hdeferred : Overrides.isDeferred e = false) : ∀ a ∈ e.accesses, a.node ≠ o.node := by
  cases horigin : e.origin with
  | override => exact h.override e he horigin
  | default =>
    have hreads : e.readsParameters = false := by
      cases hr : e.readsParameters with
      | false => rfl
      | true => simp [Overrides.isDeferred, horigin, hr] at hdeferred
    simp [Program.accesses_eq_nil hreads]

section construction
variable {o : Overrides} (hnd : (o.entries.map (·.name)).Nodup) (style : Options.Style)
  (className : String)
include hnd

/-- In both styles the deferred defaults are stored last, all of them and in order. -/
theorem Overrides.construction_deferred :
    ∃ keywords first, o.construction style className =
        .construct o.node o.path className keywords ::
          (first ++ deferred o.entries).map (.store o.node o.path) ∧
      (∀ e ∈ keywords, e ∈ o.entries ∧ isDeferred e = false) ∧
      ∀ e ∈ first, e ∈ o.entries ∧ isDeferred e = false := by
  cases style with
  | targeted =>
    refine ⟨[], overriding o.entries, construction_targeted o className, by simp, ?_⟩
    intro e he
    obtain ⟨hmem, horigin⟩ := List.mem_filter.mp he
    exact ⟨hmem, by simp [isDeferred, of_decide_eq_true horigin]⟩
  | bulkMerge =>
    refine ⟨immediate o.entries, [], construction_bulkMerge hnd className, ?_, by simp⟩
    intro e he
    obtain ⟨hmem, hdeferred⟩ := List.mem_filter.mp he
    exact ⟨hmem, by simpa using hdeferred⟩

/-- Whether a field is written after it was read depends on the deferred defaults alone. -/
theorem settled_construction_iff (h : ReadsApart o) :
    Settled o.node (o.construction style className) ↔
      (deferred o.entries).Pairwise fun e f => ∀ a ∈ e.accesses, f.name ≠ a.name := by
  obtain ⟨keywords, first, heq, hkeywords, hfirst⟩ := o.construction_deferred hnd style className
  have hown : ∀ e ∈ deferred o.entries, ∀ a ∈ e.accesses, a.node = o.node := by
    intro e he
    obtain ⟨hmem, hdeferred⟩ := List.mem_filter.mp he
    exact h.default e hmem (isDeferred_iff.mp hdeferred).1
  -- what stands before the deferred defaults reads nothing of the instance
  have hcall : ∀ a ∈ keywords.flatMap Entry.accesses, a.node ≠ o.node := by
    intro a ha
    obtain ⟨e, he, ha⟩ := List.mem_flatMap.mp ha
    exact h.apart (hkeywords e he).1 (hkeywords e he).2 a ha
  have hbefore : ∀ e ∈ first, ∀ a ∈ e.accesses, a.node ≠ o.node := fun e he =>
    h.apart (hfirst e he).1 (hfirst e he).2
  unfold Settled
  rw [heq, List.pairwise_cons, List.map_append, List.pairwise_append, List.pairwise_map,
    List.pairwise_map]
  constructor
  · rintro ⟨_, _, hlast, _⟩
    refine hlast.imp_of_mem fun {e f} he _ hpair a ha => ?_
    exact hpair a ha (hown e he a ha) f.write List.mem_cons_self
  · intro hlast
    refine ⟨?_, ?_, ?_, ?_⟩
    · intro s _ a ha hnode
      exact absurd hnode (hcall a ha)
    · -- in bulk nothing is stored here, and otherwise overrides are
      refine List.pairwise_of_forall_mem_list ?_
      intro e he f _ a ha hnode
      exact absurd hnode (hbefore e he a ha)
    · refine hlast.imp fun {e f} hpair a ha _ w hw => ?_
      obtain rfl := List.mem_singleton.mp hw
      exact hpair a ha
    · intro s hs t _ a ha hnode
      obtain ⟨e, he, rfl⟩ := List.mem_map.mp hs
      exact absurd hnode (hbefore e he a ha)

/-! ## Runs -/

/-- The construction of an instance ends with the stores of the deferred defaults. -/
theorem runFrom_construction {m : Module} {b : ClassBlock} (hb : m.class? className = some b)
    (h : Objects) :
    ∃ made, m.runFrom h (o.construction style className) =
      some ((deferred o.entries).foldl (store o.node) made) := by
  obtain ⟨keywords, first, heq, _⟩ := o.construction_deferred hnd style className
  rw [heq]
  show ∃ made, (m.runStatement h _).bind (fun h' => m.runFrom h' _) = some _
  rw [Module.runStatement_construct hb, Option.bind_some, runFrom_stores, List.foldl_append]
  exact ⟨_, rfl⟩

end construction

/-- Stores change the fields of their names, and those of the instance alone. -/
theorem foldl_store_of_not_mem {es : List Entry} {h : Objects} {i j : NodeId} {name : String}
    (hne : j ≠ i ∨ name ∉ es.map (·.name)) : es.foldl (store i) h j name = h j name := by
  -- on the stores, from whatever the objects are by then
  induction es generalizing h with
  | nil => rfl
  | cons e es ih =>
    rw [List.map_cons, List.mem_cons, not_or] at hne
    rw [List.foldl_cons, ih (hne.imp_right fun hnot => hnot.2)]
    exact put_of_ne (hne.imp_right fun hnot => hnot.1)

/-- An entry whose value reads no field that is stored with it or after it has this value in the
    end. -/
theorem foldl_store_final {us vs : List Entry} {e : Entry} {h : Objects} {i : NodeId}
    (hnew : e.name ∉ vs.map (·.name)) (hfields : ∀ name, .field name ∉ e.terms)
    (hfinal : ∀ a ∈ e.accesses, a.name ∉ (e :: vs).map (·.name)) :
    (us ++ e :: vs).foldl (store i) h i e.name =
      ((us ++ e :: vs).foldl (store i) h).value i e.terms := by
  rw [List.foldl_append]
  generalize us.foldl (store i) h = before
  have hkept : ∀ a ∈ e.accesses,
      (e :: vs).foldl (store i) before a.node a.name = before a.node a.name :=
    fun a ha => foldl_store_of_not_mem (.inr (hfinal a ha))
  -- what the value reads is the same when it is stored and in the end
  have hvalue : ((e :: vs).foldl (store i) before).value i e.terms = before.value i e.terms := by
    apply value_congr
    intro t ht
    have hmem : ∀ a, t.access? = some a → a ∈ e.accesses :=
      fun a ha => List.mem_filterMap.mpr ⟨t, ht, ha⟩
    cases t with
    | constant text => rfl
    | field name => exact absurd ht (hfields name)
    | own a => exact hkept a (hmem a rfl)
    | forwarded a => exact hkept a (hmem a rfl)
  rw [hvalue, List.foldl_cons, foldl_store_of_not_mem (.inr hnew)]
  exact put_self

end Script

/-- The instance leaves the parameter to its default, which refers to parameters. -/
def Assembly.Node.Derives (n : Assembly.Node) (q : Catalog.Parameter) : Prop :=
  ¬ n.Sets q ∧ q.Refers

/-- The default of the parameter refers to a parameter of this name. -/
def Catalog.Reads (c : Catalog) (q : Catalog.Parameter) (name : String) : Prop :=
  ∃ i x, .param i ∈ q.default ∧ c.parameter? i = some x ∧ x.name = name

/-- The default of the first parameter refers to the second one. -/
def Catalog.RefersTo (c : Catalog) (q w : ParamId) : Prop :=
  ∃ x, c.parameter? q = some x ∧ .param w ∈ x.default

namespace Program

open Script

variable {p : Program}

/-! ## The entries of an instance -/

section entries
variable {n : Assembly.Node} {q : Catalog.Parameter}

/-- Nothing is wrong with a default that refers to parameters. -/
theorem slotFault?_of_derives (h : n.Derives q) : slotFault? n q = none := by
  obtain ⟨v, hv, _⟩ := h.2
  unfold slotFault?
  rw [lastSetting?_eq_none_iff.mpr h.1]
  exact if_neg (List.ne_nil_of_mem hv)

/-- So it has an entry. -/
theorem slotEntry?_of_derives (h : n.Derives q) : p.slotEntry? n q = some (p.entryAt n q) := by
  unfold slotEntry?
  rw [slotFault?_of_derives h]

/-- The terms of a default that is not set are read from the instance. -/
theorem terms_of_derives (h : n.Derives q) :
    (p.entryAt n q).terms = q.default.map (p.ownExpr n.id) := by
  simp [entryAt, resolutionAt, lastSetting?_eq_none_iff.mpr h.1]

theorem exists_access_iff (hp : p.Closed) (hq : p.catalog.parameter? q.id = some q)
    (h : n.Derives q) {name : String} :
    (∃ a ∈ (p.entryAt n q).accesses, a.name = name) ↔ p.catalog.Reads q name := by
  unfold Entry.accesses
  rw [terms_of_derives h]
  constructor
  · rintro ⟨a, ha, rfl⟩
    obtain ⟨t, ht, hta⟩ := List.mem_filterMap.mp ha
    obtain ⟨v, hv, rfl⟩ := List.mem_map.mp ht
    cases v with
    | constant k => cases hta
    | param i =>
      cases hta
      obtain ⟨x, hx⟩ := Catalog.hasParameter_iff.mp (hp.catalog.default hq _ hv i rfl)
      exact ⟨i, x, hv, hx, (nameOf_eq hx).symm⟩
  · rintro ⟨i, x, hi, hx, rfl⟩
    have ht : p.ownExpr n.id (.param i) ∈ q.default.map (p.ownExpr n.id) := List.mem_map_of_mem hi
    exact ⟨_, List.mem_filterMap.mpr ⟨_, ht, rfl⟩, nameOf_eq hx⟩

/-- Entries have the parameters with which nothing is wrong. -/
theorem slotEntries_eq (qs : List Catalog.Parameter) :
    qs.filterMap (p.slotEntry? n) =
      (qs.filter fun q => (slotFault? n q).isNone).map (p.entryAt n) := by
  induction qs with
  | nil => rfl
  | cons q qs ih =>
    unfold slotEntry? at ih ⊢
    cases hfault : slotFault? n q <;> simp [hfault, ih]

/-- The deferred entries are those of the parameters that are derived. -/
theorem deferred_slotEntries (qs : List Catalog.Parameter) :
    deferred (qs.filterMap (p.slotEntry? n)) =
      (qs.filter fun q => Overrides.isDeferred (p.entryAt n q)).map (p.entryAt n) := by
  unfold deferred
  rw [slotEntries_eq, List.filter_map, List.filter_filter]
  refine congrArg (List.map _) (List.filter_congr fun q _ => ?_)
  -- nothing is wrong where the entry is deferred, so the second condition adds nothing
  cases hdeferred : Overrides.isDeferred (p.entryAt n q) with
  | false => simp [hdeferred]
  | true => simp [hdeferred, slotFault?_of_derives (isDeferred_entryAt.mp hdeferred)]

/-- Entries have the names of their parameters. -/
theorem names_slotEntries_sublist (qs : List Catalog.Parameter) :
    ((qs.filterMap (p.slotEntry? n)).map (·.name)).Sublist (qs.map (·.name)) := by
  rw [slotEntries_eq, List.map_map]
  exact List.filter_sublist.map _

end entries

section node
variable {n : Assembly.Node}

theorem readsApart_overridesOf (hparent : n.parent ≠ some n.id) : ReadsApart (p.overridesOf n) where
  override := by
    intro e he horigin a ha hnode
    obtain ⟨q, _, hq⟩ := List.mem_filterMap.mp he
    obtain ⟨rfl, hreports⟩ := slotEntry?_eq_some hq
    have hself : a.node = n.id := hnode
    exact hparent (hself ▸ parent_of_override hreports horigin ha)
  default := by
    intro e he horigin a ha
    obtain ⟨q, _, hq⟩ := List.mem_filterMap.mp he
    obtain ⟨rfl, _⟩ := slotEntry?_eq_some hq
    exact self_of_default horigin ha

variable (hp : p.Closed) (hr : p.catalog.HasReactor n.reactor)
include hp hr

/-- A deferred default writes what an earlier one has read exactly if the parameters are so. -/
theorem pairwise_deferred_iff :
    ((deferred (p.overridesOf n).entries).Pairwise fun e f => ∀ a ∈ e.accesses, f.name ≠ a.name) ↔
      (p.visibleOf n.reactor).Pairwise fun q w =>
        n.Derives q → n.Derives w → ¬ p.catalog.Reads q w.name := by
  show (deferred ((p.visibleOf n.reactor).filterMap (p.slotEntry? n))).Pairwise _ ↔ _
  rw [deferred_slotEntries, List.pairwise_map, List.pairwise_filter]
  -- pair by pair, for what an entry reads is known of visible parameters only
  apply List.Pairwise.iff_of_mem
  intro q w hq _
  rw [isDeferred_entryAt, isDeferred_entryAt]
  refine forall_congr' fun hderives => forall_congr' fun _ => ?_
  rw [← exists_access_iff hp (hp.parameter?_of_visibleOf hr hq) hderives]
  constructor
  · rintro h ⟨a, ha, hname⟩
    exact h a ha hname.symm
  · intro h a ha hname
    exact h ⟨a, ha, hname.symm⟩

/-- A derived parameter that reads no derived one from itself on has the value of its default in the
    end. -/
theorem deferred_final (hnd : ((p.visibleOf n.reactor).map (·.name)).Nodup)
    {before after : List Catalog.Parameter} {q : Catalog.Parameter}
    (hsplit : p.visibleOf n.reactor = before ++ q :: after) (hderives : n.Derives q)
    (hfinal : ∀ w ∈ q :: after, n.Derives w → ¬ p.catalog.Reads q w.name) (made : Objects) :
    (deferred (p.overridesOf n).entries).foldl (Objects.store n.id) made n.id q.name =
      ((deferred (p.overridesOf n).entries).foldl (Objects.store n.id) made).value n.id
        (p.entryAt n q).terms := by
  have hq : q ∈ p.visibleOf n.reactor := by simp [hsplit]
  have hlist : deferred (p.overridesOf n).entries =
      (before.filter fun w => Overrides.isDeferred (p.entryAt n w)).map (p.entryAt n) ++
        p.entryAt n q ::
          (after.filter fun w => Overrides.isDeferred (p.entryAt n w)).map (p.entryAt n) := by
    show deferred ((p.visibleOf n.reactor).filterMap (p.slotEntry? n)) = _
    rw [deferred_slotEntries, hsplit]
    simp [isDeferred_entryAt.mpr hderives]
  -- no other entry has the name of `q`, so its store is the last one of this field
  have hnot : q.name ∉ after.map (·.name) := by
    rw [hsplit, List.map_append, List.map_cons] at hnd
    exact (List.nodup_cons.mp (List.nodup_append.mp hnd).2.1).1
  rw [hlist]
  apply foldl_store_final
  · intro hmem
    obtain ⟨e, he, hname⟩ := List.mem_map.mp hmem
    obtain ⟨w, hw, rfl⟩ := List.mem_map.mp he
    exact hnot (List.mem_map.mpr ⟨w, List.mem_of_mem_filter hw, hname⟩)
  · intro name hfield
    rw [terms_of_derives hderives] at hfield
    obtain ⟨v, _, hv⟩ := List.mem_map.mp hfield
    cases v <;> cases hv
  · intro a ha hmem
    have hreads : p.catalog.Reads q a.name :=
      (exists_access_iff hp (hp.parameter?_of_visibleOf hr hq) hderives).mp ⟨a, ha, rfl⟩
    obtain ⟨e, he, hname⟩ := List.mem_map.mp hmem
    -- the entry is that of a derived parameter, `q` itself or one behind it
    obtain ⟨w, hw, hwderives, rfl⟩ : ∃ w ∈ q :: after, n.Derives w ∧ e = p.entryAt n w := by
      rcases List.mem_cons.mp he with rfl | he
      · exact ⟨q, List.mem_cons_self, hderives, rfl⟩
      · obtain ⟨w, hw, rfl⟩ := List.mem_map.mp he
        obtain ⟨hw, hdeferred⟩ := List.mem_filter.mp hw
        exact ⟨w, List.mem_cons_of_mem q hw, isDeferred_entryAt.mp hdeferred, rfl⟩
    have hwname : w.name = a.name := hname
    exact hfinal w hw hwderives (hwname ▸ hreads)

end node

/-! ## Accepted models -/

section instances
variable (hp : p.Closed) {n : Assembly.Node} (hn : p.assembly.node? n.id = some n)
  (hparent : n.parent ≠ some n.id) (hnd : ((p.visibleOf n.reactor).map (·.name)).Nodup)
include hp hn hnd

omit hp hn in
theorem nodup_names_overridesOf : ((p.overridesOf n).entries.map (·.name)).Nodup :=
  hnd.sublist (names_slotEntries_sublist (p.visibleOf n.reactor))

include hparent in
/-- No statement of an instance writes what an earlier one has read, exactly if no derived parameter
    reads a derived one that stands behind it. -/
theorem settled_statementsOf_iff :
    Settled n.id (p.statementsOf n) ↔ (p.visibleOf n.reactor).Pairwise fun q w =>
      n.Derives q → n.Derives w → ¬ p.catalog.Reads q w.name :=
  (settled_construction_iff (nodup_names_overridesOf hnd) p.options.style (p.classOf n)
    (readsApart_overridesOf hparent)).trans (pairwise_deferred_iff hp (hp.reactor hn))

/-- A derived parameter that reads no derived one from itself on has its entry, and when the
    instance is constructed its field holds what the entry reads then. -/
theorem run_statementsOf {m : Module} {b : ClassBlock} (hb : m.class? (p.classOf n) = some b)
    (h : Objects) :
    ∃ h', m.runFrom h (p.statementsOf n) = some h' ∧
      ∀ before q after, p.visibleOf n.reactor = before ++ q :: after → n.Derives q →
        (∀ w ∈ q :: after, n.Derives w → ¬ p.catalog.Reads q w.name) →
        ∃ e ∈ (p.overridesOf n).entries, (p.entry ⟨q.id, n.id⟩).run = some (some e, []) ∧
          h' n.id q.name = h'.value n.id e.terms := by
  have hr := hp.reactor hn
  obtain ⟨made, hrun⟩ :=
    runFrom_construction (nodup_names_overridesOf hnd) p.options.style (p.classOf n) hb h
  refine ⟨_, hrun, ?_⟩
  intro before q after hsplit hderives hfinal
  have hq : q ∈ p.visibleOf n.reactor := by simp [hsplit]
  have hentry := slotEntry?_of_derives (p := p) hderives
  have hreports : slotReports n q = [] := by
    unfold slotReports
    rw [slotFault?_of_derives hderives]
    rfl
  refine ⟨p.entryAt n q, List.mem_filterMap.mpr ⟨q, hq, hentry⟩, ?_,
    deferred_final hp hr hnd hsplit hderives hfinal made⟩
  rw [entry_run hp hn (hp.parameter?_of_visibleOf hr hq), hentry, hreports]

end instances

/-- In an accepted model that repeats no name, the statements of an instance write a field that an
    earlier one has read exactly if a default that reads parameters reads another such default that
    stands behind it among the visible parameters, both of them not set by the instance.  Whatever
    the class does, a default ends with the value that its terms have when the construction is done,
    if of such defaults it reads only those before it.  This is so in both styles. -/
theorem defaults_settle {m : Model} (hload : m.elaborate = some (.ok p))
    (hdistinct : ∀ r, p.catalog.HasReactor r → ∀ qs, p.catalog.visible? r = some qs →
      (qs.map (·.name)).Nodup)
    (o : Options) (style : Options.Style) {n : Assembly.Node}
    (hn : p.assembly.node? n.id = some n) :
    ∃ qs os ds ss name, p.catalog.visible? n.reactor = some qs ∧
      ((p.styled o style).overridesAt n).run = some (os, ds) ∧
      (p.styled o style).construction? os = some ss ∧
      p.className? n.reactor = some name ∧
      (Settled n.id ss ↔ qs.Pairwise fun q w =>
        n.Derives q → n.Derives w → ¬ p.catalog.Reads q w.name) ∧
      ∀ (m : Module) (b : ClassBlock) (h : Objects), m.class? name = some b →
        ∃ h', m.runFrom h ss = some h' ∧
          ∀ before q after, qs = before ++ q :: after → n.Derives q →
            (∀ w ∈ q :: after, n.Derives w → ¬ p.catalog.Reads q w.name) →
            ∃ e ∈ os.entries, ((p.styled o style).entry ⟨q.id, n.id⟩).run = some (some e, []) ∧
              h' n.id q.name = h'.value n.id e.terms := by
  obtain ⟨hloaded, _⟩ := Model.loaded_of_elaborate hload
  have hp : (p.styled o style).Closed := (closed_of_loaded hloaded).withOptions _
  have hr := hp.reactor hn
  have hvisible := hp.visible? hr
  have hnd : (((p.styled o style).visibleOf n.reactor).map (·.name)).Nodup :=
    hdistinct n.reactor hr _ hvisible
  have hparent := parent_ne_self (closed_of_loaded hloaded) (mem_nodesOf hloaded hn)
  exact ⟨_, _, _, _, _, hvisible, overridesAt_run hp hn hvisible, construction?_eq hp hn,
    className?_eq hr, settled_statementsOf_iff hp hn hparent hnd,
    fun m b h hb => run_statementsOf hp hn hnd hb h⟩

/-! ## Chains

    Of three parameters the first is read by the default of the second, and that by the default of
    the third.  The root sets the first one. -/

/-- A model of one reactor with these parameters, whose root sets `z`. -/
def chain (parameters : List Model.Parameter) : Model where
  options := .standard
  reactors := [⟨"A", [], parameters, .nowhere⟩]
  main := ⟨"main", "A", [⟨"z", [.int 5], .nowhere⟩], [], .nowhere⟩

/-- A parameter of the reactor. -/
def link (i : Nat) (name : String) (default : List Value) : Catalog.Parameter :=
  ⟨⟨i⟩, ⟨0⟩, name, none, default, .nowhere⟩

@[simp] theorem name_link (i : Nat) (name : String) (default : List Value) :
    (link i name default).name = name := rfl

/-- The root, where `z` is the parameter of this name. -/
def chainRoot (z : ParamId) : Assembly.Node :=
  ⟨⟨0⟩, "main", ⟨0⟩, none, [], [⟨z, [.constant (.int 5)], .nowhere⟩], .nowhere⟩

/-- The program of a chain. -/
def chainProgram (z : ParamId) (parameters : List Catalog.Parameter) : Program where
  catalog :=
    { reactors := #[⟨⟨0⟩, "A", [], parameters.map (·.id), .nowhere⟩]
      parameters := parameters.toArray }
  assembly := { nodes := #[chainRoot z] }

/-- Every default reads a parameter that is declared before. -/
def downstream : Model :=
  chain [⟨"z", none, [.int 1], .nowhere⟩, ⟨"y", none, [.param (.plain "z")], .nowhere⟩,
    ⟨"x", none, [.param (.plain "y")], .nowhere⟩]

/-- The program of `downstream`. -/
def downstreamProgram : Program :=
  chainProgram ⟨0⟩
    [link 0 "z" [.constant (.int 1)], link 1 "y" [.param ⟨0⟩], link 2 "x" [.param ⟨1⟩]]

/-- Every default reads a parameter that is declared behind. -/
def upstream : Model :=
  chain [⟨"x", none, [.param (.plain "y")], .nowhere⟩,
    ⟨"y", none, [.param (.plain "z")], .nowhere⟩, ⟨"z", none, [.int 1], .nowhere⟩]

/-- The program of `upstream`. -/
def upstreamProgram : Program :=
  chainProgram ⟨2⟩
    [link 0 "x" [.param ⟨1⟩], link 1 "y" [.param ⟨2⟩], link 2 "z" [.constant (.int 1)]]

/-- The only reactor of a chain repeats no name if the list of its parameters does not. -/
theorem distinct_chain {z : ParamId} {ps : List Catalog.Parameter}
    (hvisible : (chainProgram z ps).catalog.visible? ⟨0⟩ = some ps)
    (hnd : (ps.map (·.name)).Nodup) (r : ReactorId)
    (hr : (chainProgram z ps).catalog.HasReactor r) (qs : List Catalog.Parameter)
    (hqs : (chainProgram z ps).catalog.visible? r = some qs) : (qs.map (·.name)).Nodup := by
  have hzero : r = ⟨0⟩ := by
    cases r with
    | mk i => exact congrArg ReactorId.mk (Nat.lt_one_iff.mp hr)
  rw [hzero, hvisible] at hqs
  cases hqs
  exact hnd

/-- A default that is one reference reads the name of what it refers to, and no other. -/
theorem reads_link {c : Catalog} {k i : Nat} {name : String} {x : Catalog.Parameter}
    (hx : c.parameter? ⟨i⟩ = some x) {other : String} :
    c.Reads (link k name [.param ⟨i⟩]) other ↔ x.name = other := by
  constructor
  · rintro ⟨j, y, hj, hy, rfl⟩
    obtain rfl : j = ⟨i⟩ := by simpa [link] using hj
    rw [hx] at hy
    cases hy
    rfl
  · intro hname
    exact ⟨⟨i⟩, x, List.mem_cons_self, hx, hname⟩

/-- A parameter with such a default is derived unless it is `z`. -/
theorem derives_link {z : ParamId} {k i : Nat} {name : String} (hne : z ≠ ⟨k⟩) :
    (chainRoot z).Derives (link k name [.param ⟨i⟩]) := by
  refine ⟨?_, .param ⟨i⟩, List.mem_cons_self, by simp [Value.reference?]⟩
  rintro ⟨x, hx, htarget⟩
  obtain rfl : x = ⟨z, [.constant (.int 5)], .nowhere⟩ := List.mem_singleton.mp hx
  exact hne htarget

/-- What the root sets goes down the whole chain. -/
theorem defaults_settle_downstream :
    downstream.elaborate = some (.ok downstreamProgram) ∧
      (∀ r, downstreamProgram.catalog.HasReactor r → ∀ qs,
        downstreamProgram.catalog.visible? r = some qs → (qs.map (·.name)).Nodup) ∧
      downstreamProgram.assembly.node? ⟨0⟩ = some (chainRoot ⟨0⟩) ∧
      ∃ os ds ss name,
        ((downstreamProgram.styled .standard .targeted).overridesAt (chainRoot ⟨0⟩)).run =
          some (os, ds) ∧
        (downstreamProgram.styled .standard .targeted).construction? os = some ss ∧
        downstreamProgram.className? ⟨0⟩ = some name ∧ Settled ⟨0⟩ ss ∧
        ∀ (m : Module) (b : ClassBlock) (h : Objects), m.class? name = some b →
          ∃ h', m.runFrom h ss = some h' ∧ h' ⟨0⟩ "x" = h' ⟨0⟩ "y" ∧ h' ⟨0⟩ "y" = h' ⟨0⟩ "z" := by
  have hload : downstream.elaborate = some (.ok downstreamProgram) := rfl
  have hnd : ([link 0 "z" [.constant (.int 1)], link 1 "y" [.param ⟨0⟩],
    link 2 "x" [.param ⟨1⟩]].map (·.name)).Nodup := by decide
  have hdistinct := distinct_chain (z := ⟨0⟩) rfl hnd
  have hroot : downstreamProgram.assembly.node? ⟨0⟩ = some (chainRoot ⟨0⟩) := rfl
  have hp : (downstreamProgram.styled .standard .targeted).Closed :=
    (closed_of_loaded (Model.loaded_of_elaborate hload).1).withOptions _
  obtain ⟨qs, os, ds, ss, name, hqs, hos, hss, hname, hsettled, hrun⟩ :=
    defaults_settle hload hdistinct .standard .targeted (n := chainRoot ⟨0⟩) hroot
  have hy : ∀ other, downstreamProgram.catalog.Reads (link 1 "y" [.param ⟨0⟩]) other ↔
      "z" = other := fun _ => reads_link (x := link 0 "z" [.constant (.int 1)]) rfl
  have hx : ∀ other, downstreamProgram.catalog.Reads (link 2 "x" [.param ⟨1⟩]) other ↔
      "y" = other := fun _ => reads_link (x := link 1 "y" [.param ⟨0⟩]) rfl
  obtain rfl : [link 0 "z" [.constant (.int 1)], link 1 "y" [.param ⟨0⟩],
    link 2 "x" [.param ⟨1⟩]] = qs := Option.some.inj hqs
  refine ⟨hload, hdistinct, hroot, os, ds, ss, name, hos, hss, hname, ?_, ?_⟩
  · have hz : ¬ (chainRoot ⟨0⟩).Derives (link 0 "z" [.constant (.int 1)]) := by
      rintro ⟨hset, _⟩
      exact hset ⟨_, List.mem_cons_self, rfl⟩
    refine hsettled.mpr ?_
    simp [hz, hy]
  · intro m b h hb
    obtain ⟨h', hh', hfinal⟩ := hrun m b h hb
    obtain ⟨e, _, he, hvalue⟩ := hfinal [link 0 "z" [.constant (.int 1)], link 1 "y" [.param ⟨0⟩]]
      (link 2 "x" [.param ⟨1⟩]) [] rfl (derives_link (by decide)) (by simp [hx])
    obtain ⟨f, _, hf, hvalue'⟩ := hfinal [link 0 "z" [.constant (.int 1)]]
      (link 1 "y" [.param ⟨0⟩]) [link 2 "x" [.param ⟨1⟩]] rfl (derives_link (by decide))
      (by simp [hy])
    -- the terms of the two entries are one reference each
    rw [entry_run hp (n := chainRoot ⟨0⟩) rfl rfl] at he hf
    cases he
    cases hf
    exact ⟨h', hh', hvalue, hvalue'⟩

/-- No default refers to its own parameter, directly or by way of others, if every default refers to
    later parameters alone. -/
theorem acyclic_of_later {c : Catalog} (h : ∀ q w, c.RefersTo q w → q.index < w.index)
    (q : ParamId) : ¬ Relation.TransGen c.RefersTo q q := by
  have hlater : ∀ w, Relation.TransGen c.RefersTo q w → q.index < w.index := by
    intro w hw
    induction hw with
    | single href => exact h _ _ href
    | tail _ href ih => exact Nat.lt_trans ih (h _ _ href)
  exact fun hq => Nat.lt_irrefl _ (hlater q hq)

/-- The default of the third parameter has read that of the second before it gets what the root
    sets, in both styles, although no default depends on itself.  So the two end differently. -/
theorem stale_defaults :
    upstream.elaborate = some (.ok upstreamProgram) ∧ upstreamProgram.validate? = some [] ∧
      (∀ r, upstreamProgram.catalog.HasReactor r → ∀ qs,
        upstreamProgram.catalog.visible? r = some qs → (qs.map (·.name)).Nodup) ∧
      (∀ q, ¬ Relation.TransGen upstreamProgram.catalog.RefersTo q q) ∧
      upstreamProgram.assembly.node? ⟨0⟩ = some (chainRoot ⟨2⟩) ∧
      (∀ style, ∃ os ss,
        ((upstreamProgram.styled .standard style).overridesAt (chainRoot ⟨2⟩)).run =
          some (os, []) ∧
        (upstreamProgram.styled .standard style).construction? os = some ss ∧
        ¬ Settled ⟨0⟩ ss) ∧
      ∃ m objects, ((upstreamProgram.styled .standard .targeted).emit []).run = some (m, []) ∧
        m.execute = some objects ∧ objects ⟨0⟩ "y" = .constant "5" ∧ objects ⟨0⟩ "x" = .unset := by
  have hload : upstream.elaborate = some (.ok upstreamProgram) := rfl
  have hvalid : upstreamProgram.validate? = some [] := rfl
  have hp : ∀ style, (upstreamProgram.styled .standard style).Closed := fun _ =>
    (closed_of_loaded (Model.loaded_of_elaborate hload).1).withOptions _
  have hnd : ([link 0 "x" [.param ⟨1⟩], link 1 "y" [.param ⟨2⟩],
    link 2 "z" [.constant (.int 1)]].map (·.name)).Nodup := by decide
  -- the three defaults one by one, as there is no other parameter
  have hlater : ∀ q w, upstreamProgram.catalog.RefersTo q w → q.index < w.index := by
    rintro q w ⟨x, hx, hw⟩
    match q with
    | ⟨0⟩ =>
      cases hx
      obtain rfl : w = ⟨1⟩ := by simpa using (show Value.param w ∈ [Value.param ⟨1⟩] from hw)
      decide
    | ⟨1⟩ =>
      cases hx
      obtain rfl : w = ⟨2⟩ := by simpa using (show Value.param w ∈ [Value.param ⟨2⟩] from hw)
      decide
    | ⟨2⟩ =>
      cases hx
      simpa using (show Value.param w ∈ [Value.constant (.int 1)] from hw)
    | ⟨i + 3⟩ => simp [Catalog.parameter?, upstreamProgram, chainProgram] at hx
  refine ⟨hload, hvalid, distinct_chain (z := ⟨2⟩) rfl hnd, acyclic_of_later hlater, rfl, ?_, ?_⟩
  · intro style
    refine ⟨_, _, overridesAt_run (hp style) (n := chainRoot ⟨2⟩) rfl rfl,
      construction?_eq (hp style) rfl, fun hsettled => ?_⟩
    have hpairs := (settled_statementsOf_iff (hp style) (n := chainRoot ⟨2⟩) rfl (by decide)
      hnd).mp hsettled
    have hreads : upstreamProgram.catalog.Reads (link 0 "x" [.param ⟨1⟩]) "y" :=
      (reads_link (x := link 1 "y" [.param ⟨2⟩]) rfl).mpr rfl
    exact (List.pairwise_cons.mp hpairs).1 (link 1 "y" [.param ⟨2⟩]) List.mem_cons_self
      (derives_link (by decide)) (derives_link (by decide)) hreads
  · have hfields : ((upstreamProgram.styled .standard .targeted).moduleOf []).execute.map
        (fun h => (h ⟨0⟩ "y", h ⟨0⟩ "x")) = some (.constant "5", .unset) := rfl
    obtain ⟨objects, hexecute, hpair⟩ := Option.map_eq_some_iff.mp hfields
    obtain ⟨hy, hx⟩ := Prod.mk.inj hpair
    exact ⟨_, objects, emit_of_valid (hp .targeted) ((validate?_withOptions _).trans hvalid) rfl [],
      hexecute, hy, hx⟩

end Program

end Reactors
