import Reactors.Proofs.Script.Styles

/-! # Repeated names

    Parameters of one name share one field.  The last of them is the one that the name stands for,
    and its value is the one that the values of an instance give for the name.  In the bulk-merge
    style it is also the last one that is written to the field.  In the targeted style it is, unless
    an earlier parameter of the name has a default that reads parameters: such a default is assigned
    at the very end, behind the overrides, and only a default of the last parameter that reads
    parameters as well comes behind it.
-/

namespace Reactors

open Diagnostic (hasErrors)

namespace Script

/-! ## Writes -/

/-- A write to the field of a parameter. -/
structure Write where
  /-- The parameter whose value is written. -/
  param : ParamId
  /-- The name of the field. -/
  name : String
  /-- Where the value comes from. -/
  origin : Origin
  /-- The value. -/
  text : String
  deriving DecidableEq

/-- The write of an entry. -/
def Entry.write (e : Entry) : Write := ⟨e.param, e.name, e.origin, e.text⟩

/-- What a line of a constructor writes itself. -/
def Line.writes : Line → List Write
  | .assign q name _ _ value => [⟨q, name, .default, value⟩]
  | _ => []

/-- What a statement writes behind the constructor: its keywords, or its value. -/
def Statement.writes : Statement → List Write
  | .construct _ _ _ keywords => keywords.map Entry.write
  | .store _ _ e => [e.write]

/-- The writes to the fields of an instance, whose class has this constructor and which is
    constructed by these statements. -/
def fieldWrites (skeleton : List Line) (construction : List Statement) : List Write :=
  skeleton.flatMap Line.writes ++ construction.flatMap Statement.writes

/-- The last write to the field of a name. -/
def lastWrite? (name : String) (ws : List Write) : Option Write :=
  ws.reverse.find? fun w => w.name == name

theorem lastWrite?_append (name : String) (ws us : List Write) :
    lastWrite? name (ws ++ us) = (lastWrite? name us).or (lastWrite? name ws) := by
  simp [lastWrite?, List.find?_append]

/-- The last write among those of the entries that satisfy a condition. -/
theorem lastWrite?_filter (name : String) (cond : Entry → Bool) (es : List Entry) :
    lastWrite? name ((es.filter cond).map Entry.write) =
      (es.reverse.find? fun e => cond e && e.name == name).map Entry.write := by
  unfold lastWrite?
  rw [← List.map_reverse, List.find?_map, ← List.filter_reverse, List.find?_filter]
  congr 2
  funext e
  rw [Bool.eq_iff_iff]
  simp [Entry.write]

theorem flatMap_writes_stores (i : NodeId) (path : String) (es : List Entry) :
    (es.map (.store i path)).flatMap Statement.writes = es.map Entry.write := by
  induction es with
  | nil => rfl
  | cons e es ih =>
    rw [List.map_cons, List.flatMap_cons, ih]
    rfl

/-! ## The last of a name -/

/-- The last element that satisfies a condition is the last one that satisfies a stronger condition,
    if it does satisfy it. -/
theorem find?_and_of_find? {α : Type} {xs : List α} {a b : α → Bool} {x : α}
    (h : xs.find? a = some x) (hb : b x = true) : xs.find? (fun y => b y && a y) = some x := by
  induction xs with
  | nil => simp at h
  | cons y ys ih =>
    rw [List.find?_cons] at h ⊢
    cases hy : a y with
    | true =>
      rw [hy] at h
      cases h
      simp [hb]
    | false =>
      rw [hy] at h
      simpa using ih h

/-! ## The styles -/

theorem lastWrite?_eq_none {name : String} {es : List Entry} (h : ∀ e ∈ es, e.name ≠ name) :
    lastWrite? name (es.map Entry.write) = none := by
  simpa [lastWrite?, Entry.write] using h

/-- The last write among entries of which a single one has the name. -/
theorem lastWrite?_of_unique {es : List Entry} {e : Entry} (he : e ∈ es)
    (honly : ∀ f ∈ es, f.name = e.name → f = e) :
    lastWrite? e.name (es.map Entry.write) = some e.write := by
  have hsome : (es.reverse.find? fun f => f.name == e.name).isSome := by
    rw [List.find?_isSome]
    exact ⟨e, List.mem_reverse.mpr he, by simp⟩
  obtain ⟨f, hf⟩ := Option.isSome_iff_exists.mp hsome
  have hname : f.name = e.name := by simpa using List.find?_some hf
  have hmem : f ∈ es := List.mem_reverse.mp (List.mem_of_find?_eq_some hf)
  rw [honly f hmem hname] at hf
  have hfilter := lastWrite?_filter e.name (fun _ => true) es
  simpa [hf] using hfilter

/-- The targeted style writes the deferred defaults behind the overrides and both behind the
    fields of the class. -/
theorem lastWrite?_targeted (name : String) (ls : List Line) (o : Overrides) (className : String) :
    lastWrite? name (fieldWrites ls (o.construction .targeted className)) =
      ((o.entries.reverse.find? fun e => Overrides.isDeferred e && e.name == name).map
        Entry.write).or
      (((o.entries.reverse.find? fun e => decide (e.origin = .override) && e.name == name).map
        Entry.write).or (lastWrite? name (ls.flatMap Line.writes))) := by
  have hcall : (Statement.construct o.node o.path className []).writes = [] := rfl
  unfold fieldWrites
  rw [construction_targeted, List.flatMap_cons, flatMap_writes_stores, hcall, List.nil_append,
    List.map_append, lastWrite?_append, lastWrite?_append, overriding, deferred, lastWrite?_filter,
    lastWrite?_filter, Option.or_assoc]

/-- The bulk-merge style writes the last entry of a name behind the fields of the class, and no
    other of the name. -/
theorem lastWrite?_bulkMerge (ls : List Line) {o : Overrides} {e : Entry}
    (h : o.entries.reverse.find? (fun f => f.name == e.name) = some e) (className : String) :
    lastWrite? e.name (fieldWrites ls (o.construction .bulkMerge className)) = some e.write := by
  have hmem : e ∈ o.distinct := o.distinct_eq ▸ mem_lastOfEachName h
  have honly : ∀ f ∈ o.distinct, f.name = e.name → f = e := by
    intro f hf hname
    have hlast := last_of_mem_lastOfEachName (o.distinct_eq ▸ hf)
    rw [hname, h] at hlast
    exact (Option.some.inj hlast).symm
  unfold fieldWrites
  rw [construction_merged, List.flatMap_cons, flatMap_writes_stores, lastWrite?_append,
    lastWrite?_append]
  show ((lastWrite? e.name ((deferred o.distinct).map Entry.write)).or
    (lastWrite? e.name ((immediate o.distinct).map Entry.write))).or _ = _
  -- the entry is stored behind the call, or is one of its keywords
  by_cases hdeferred : Overrides.isDeferred e = true
  · have he : e ∈ deferred o.distinct := List.mem_filter.mpr ⟨hmem, hdeferred⟩
    rw [lastWrite?_of_unique he fun f hf => honly f (List.mem_of_mem_filter hf)]
    rfl
  · have he : e ∈ immediate o.distinct := List.mem_filter.mpr ⟨hmem, by simpa using hdeferred⟩
    have hnone : ∀ f ∈ deferred o.distinct, f.name ≠ e.name := by
      intro f hf hname
      obtain ⟨hfmem, hfdeferred⟩ := List.mem_filter.mp hf
      exact hdeferred (honly f hfmem hname ▸ hfdeferred)
    rw [lastWrite?_eq_none hnone,
      lastWrite?_of_unique he fun f hf => honly f (List.mem_of_mem_filter hf)]
    rfl

end Script

/-- An assignment of the instance sets the parameter. -/
def Assembly.Node.Sets (n : Assembly.Node) (q : Catalog.Parameter) : Prop :=
  ∃ x ∈ n.assignments, x.target = q.id

/-- The default of the parameter refers to parameters. -/
def Catalog.Parameter.Refers (q : Catalog.Parameter) : Prop := ∃ v ∈ q.default, v.reference? ≠ none

namespace Program

open Script

variable {p : Program}

/-! ## The entries of an instance -/

theorem lastSetting?_eq_none_iff {n : Assembly.Node} {q : Catalog.Parameter} :
    Assembly.lastSetting? q.id n.assignments = none ↔ ¬ n.Sets q := by
  simp [Assembly.lastSetting?, Assembly.Node.Sets]

theorem origin_entryAt {n : Assembly.Node} {q : Catalog.Parameter} :
    (p.entryAt n q).origin = .override ↔ n.Sets q := by
  unfold entryAt resolutionAt
  cases hx : Assembly.lastSetting? q.id n.assignments with
  | none => simp [lastSetting?_eq_none_iff.mp hx]
  | some x =>
    have hset : n.Sets q := by
      by_contra hnot
      rw [lastSetting?_eq_none_iff.mpr hnot] at hx
      cases hx
    simp [hset]

theorem isDeferred_entryAt {n : Assembly.Node} {q : Catalog.Parameter} :
    Overrides.isDeferred (p.entryAt n q) = true ↔ ¬ n.Sets q ∧ q.Refers := by
  rw [isDeferred_iff]
  by_cases hset : n.Sets q
  · have hover := origin_entryAt (p := p).mpr hset
    simp [hover, hset]
  · have hnone := lastSetting?_eq_none_iff.mpr hset
    simp [entryAt, resolutionAt, hnone, hset, Entry.readsParameters, Catalog.Parameter.Refers,
      isRead_ownExpr]

/-! ## The fields of a class -/

variable (p) in
/-- The write of the default of a parameter in a class. -/
def fieldWrite (q : Catalog.Parameter) : Write :=
  ⟨q.id, q.name, .default, p.tupleText (q.default.map p.classExpr)⟩

theorem flatMap_writes_blockOf (d : Catalog.Reactor) :
    (p.blockOf d).skeleton.flatMap Line.writes = (p.visibleOf d.id).map p.fieldWrite := by
  have hmerge : (mergeLines p.options.style).flatMap Line.writes = [] := by
    cases p.options.style <;> rfl
  have hfields : ((p.visibleOf d.id).map p.fieldOf).flatMap Line.writes =
      (p.visibleOf d.id).map p.fieldWrite := by
    rw [List.flatMap_map, List.map_eq_flatMap]
    rfl
  show Line.writes (.comment _) ++ List.flatMap Line.writes (_ ++ _) = _
  rw [List.flatMap_append, hfields, hmerge, List.append_nil]
  rfl

/-- The class writes the default of the last parameter of a name last. -/
theorem lastWrite?_blockOf {d : Catalog.Reactor} {name : String} {w : Catalog.Parameter}
    (hw : Catalog.lastNamed? (p.visibleOf d.id) name = some w) :
    lastWrite? name ((p.blockOf d).skeleton.flatMap Line.writes) = some (p.fieldWrite w) := by
  unfold Catalog.lastNamed? at hw
  unfold lastWrite?
  rw [flatMap_writes_blockOf, ← List.map_reverse, List.find?_map]
  show Option.map p.fieldWrite ((p.visibleOf d.id).reverse.find? fun q => q.name == name) = _
  rw [hw]
  rfl

/-- A default that refers to nothing is the same in the class and on an instance. -/
theorem fieldWrite_eq {n : Assembly.Node} {q : Catalog.Parameter} (hset : ¬ n.Sets q)
    (hrefers : ¬ q.Refers) : p.fieldWrite q = (p.entryAt n q).write := by
  have hnone := lastSetting?_eq_none_iff.mpr hset
  have hread : (q.default.map (p.ownExpr n.id)).any Expr.isRead = false := by
    rw [List.any_eq_false]
    intro t ht
    obtain ⟨v, hv, rfl⟩ := List.mem_map.mp ht
    cases v with
    | constant k => simp [ownExpr, Expr.isRead]
    | param r => exact absurd ⟨.param r, hv, by simp [Value.reference?]⟩ hrefers
  simp [fieldWrite, entryAt, Entry.write, resolutionAt, hnone, ownExpr_eq_classExpr hread]

/-! ## The last write -/

/-- The value of `w`, the last parameter of its name, is written to an instance before that of
    another: the default of an earlier parameter of the name, which reads parameters. -/
structure Undone (p : Program) (style : Options.Style) (n : Assembly.Node)
    (w : Catalog.Parameter) : Prop where
  style : style = .targeted
  earlier : ∃ q ∈ p.visibleOf n.reactor, q.name = w.name ∧ q.id ≠ w.id ∧ q.Refers
  immediate : n.Sets w ∨ ¬ w.Refers

/-- Options have no part in it, save the style. -/
theorem undone_styled (o : Options) {style : Options.Style} {n : Assembly.Node}
    {w : Catalog.Parameter} : (p.styled o style).Undone style n w ↔ p.Undone style n w :=
  ⟨fun ⟨hstyle, hearlier, himmediate⟩ => ⟨hstyle, hearlier, himmediate⟩,
    fun ⟨hstyle, hearlier, himmediate⟩ => ⟨hstyle, hearlier, himmediate⟩⟩

section last
variable {n : Assembly.Node} {d : Catalog.Reactor} {name : String} {w : Catalog.Parameter}
  (hentries : (p.overridesOf n).entries = (p.visibleOf n.reactor).map (p.entryAt n))
  (hw : Catalog.lastNamed? (p.visibleOf n.reactor) name = some w)
include hentries hw

theorem find?_entries : (p.overridesOf n).entries.reverse.find? (fun e => e.name == name) =
    some (p.entryAt n w) := by
  rw [hentries, ← List.map_reverse, List.find?_map]
  show Option.map (p.entryAt n)
    ((p.visibleOf n.reactor).reverse.find? fun q => q.name == name) = _
  unfold Catalog.lastNamed? at hw
  rw [hw]
  rfl

/-- Where no earlier entry of a name satisfies a condition, the last one may. -/
theorem find?_entries_and (cond : Entry → Bool)
    (honly : ∀ q ∈ p.visibleOf n.reactor, q.name = name → cond (p.entryAt n q) = true → q = w) :
    (p.overridesOf n).entries.reverse.find? (fun e => cond e && e.name == name) =
      if cond (p.entryAt n w) = true then some (p.entryAt n w) else none := by
  by_cases hcond : cond (p.entryAt n w) = true
  · rw [if_pos hcond]
    exact find?_and_of_find? (find?_entries hentries hw) hcond
  · rw [if_neg hcond, List.find?_eq_none]
    intro e he hboth
    rw [List.mem_reverse, hentries] at he
    obtain ⟨q, hq, rfl⟩ := List.mem_map.mp he
    obtain ⟨hq', hname⟩ := Bool.and_eq_true_iff.mp hboth
    exact hcond (honly q hq (beq_iff_eq.mp hname) hq' ▸ hq')

/-- A deferred default of the last parameter of a name comes behind everything else. -/
theorem lastWrite?_of_deferred (hdeferred : Overrides.isDeferred (p.entryAt n w) = true)
    (ls : List Line) (className : String) :
    lastWrite? name (fieldWrites ls ((p.overridesOf n).construction .targeted className)) =
      some (p.entryAt n w).write := by
  rw [lastWrite?_targeted, find?_and_of_find? (find?_entries hentries hw) hdeferred]
  rfl

omit hw in
/-- Where the last parameter of a name is not deferred, a deferred default of another one comes
    behind its value. -/
theorem lastWrite?_ne_of_deferred (hid : ∀ q ∈ p.visibleOf n.reactor, q.id = w.id → q = w)
    (himmediate : ¬ Overrides.isDeferred (p.entryAt n w) = true) {q : Catalog.Parameter}
    (hq : q ∈ p.visibleOf n.reactor) (hname : q.name = name)
    (hdeferred : Overrides.isDeferred (p.entryAt n q) = true) (ls : List Line)
    (className : String) :
    lastWrite? name (fieldWrites ls ((p.overridesOf n).construction .targeted className)) ≠
      some (p.entryAt n w).write := by
  obtain ⟨e, he⟩ : ∃ e, (p.overridesOf n).entries.reverse.find?
      (fun e => Overrides.isDeferred e && e.name == name) = some e := by
    rw [← Option.isSome_iff_exists, List.find?_isSome]
    refine ⟨p.entryAt n q, ?_, ?_⟩
    · rw [List.mem_reverse, hentries]
      exact List.mem_map_of_mem hq
    · rw [hdeferred]
      simpa [entryAt] using hname
  have hmem := List.mem_of_find?_eq_some he
  rw [List.mem_reverse, hentries] at hmem
  obtain ⟨x, hx, rfl⟩ := List.mem_map.mp hmem
  have hboth := List.find?_some he
  have hxdeferred := (Bool.and_eq_true_iff.mp hboth).1
  rw [lastWrite?_targeted, he]
  intro hsame
  -- the last write is that of a deferred default, so it is not that of `w`
  have hparam : x.id = w.id := congrArg Write.param (Option.some.inj hsame)
  exact himmediate (hid x hx hparam ▸ hxdeferred)

/-- Where no default of a name is deferred, the override of the last parameter of the name comes
    last, or else its default, which the class has written. -/
theorem lastWrite?_of_immediate (hd : d.id = n.reactor)
    (hsets : ∀ q ∈ p.visibleOf n.reactor, q.name = name → n.Sets q → q = w)
    (hnone : ∀ q ∈ p.visibleOf n.reactor, q.name = name →
      ¬ Overrides.isDeferred (p.entryAt n q) = true) (className : String) :
    lastWrite? name (fieldWrites (p.blockOf d).skeleton
      ((p.overridesOf n).construction .targeted className)) = some (p.entryAt n w).write := by
  obtain ⟨hwmem, hname⟩ := Catalog.lastNamed?_eq_some hw
  have hdeferred : ¬ Overrides.isDeferred (p.entryAt n w) = true := hnone w hwmem hname
  have hover : ∀ q ∈ p.visibleOf n.reactor, q.name = name →
      decide ((p.entryAt n q).origin = .override) = true → q = w := by
    intro q hq hqname horigin
    exact hsets q hq hqname (origin_entryAt.mp (of_decide_eq_true horigin))
  rw [lastWrite?_targeted, lastWrite?_blockOf (hd ▸ hw),
    find?_entries_and hentries hw Overrides.isDeferred
      (fun q hq hqname h => absurd h (hnone q hq hqname)),
    if_neg hdeferred, find?_entries_and hentries hw (fun e => decide (e.origin = .override)) hover]
  by_cases hset : n.Sets w
  · rw [if_pos (decide_eq_true (origin_entryAt.mpr hset))]
    rfl
  · have horigin : ¬ (p.entryAt n w).origin = .override := fun h => hset (origin_entryAt.mp h)
    have hrefers : ¬ w.Refers := fun h => hdeferred (isDeferred_entryAt.mpr ⟨hset, h⟩)
    rw [if_neg (by simpa using horigin), fieldWrite_eq hset hrefers]
    rfl

/-- In the targeted style the value of the last parameter of a name is written last, unless it is
    undone.  Assignments of the instance set the last parameters of names only. -/
theorem lastWrite?_targeted_iff (hd : d.id = n.reactor)
    (hid : ∀ q ∈ p.visibleOf n.reactor, q.id = w.id → q = w)
    (hsets : ∀ q ∈ p.visibleOf n.reactor, q.name = name → n.Sets q → q = w) (className : String) :
    lastWrite? name (fieldWrites (p.blockOf d).skeleton
        ((p.overridesOf n).construction .targeted className)) = some (p.entryAt n w).write ↔
      ¬ p.Undone .targeted n w := by
  obtain ⟨_, hname⟩ := Catalog.lastNamed?_eq_some hw
  by_cases hdeferred : Overrides.isDeferred (p.entryAt n w) = true
  · obtain ⟨hset, hrefers⟩ := isDeferred_entryAt.mp hdeferred
    apply iff_of_true (lastWrite?_of_deferred hentries hw hdeferred _ className)
    intro h
    exact h.immediate.elim hset fun hnot => hnot hrefers
  · have himmediate : n.Sets w ∨ ¬ w.Refers := by
      by_contra hnot
      rw [not_or, not_not] at hnot
      exact hdeferred (isDeferred_entryAt.mpr hnot)
    by_cases hearlier : ∃ q ∈ p.visibleOf n.reactor, q.name = w.name ∧ q.id ≠ w.id ∧ q.Refers
    · obtain ⟨q, hq, hqname, hne, hrefers⟩ := hearlier
      -- only `w` could be set, so the default of the other one is deferred
      have hqset : ¬ n.Sets q := fun h =>
        hne (congrArg Catalog.Parameter.id (hsets q hq (hqname.trans hname) h))
      have hqdeferred := isDeferred_entryAt (p := p).mpr ⟨hqset, hrefers⟩
      apply iff_of_false (lastWrite?_ne_of_deferred hentries hid hdeferred hq
        (hqname.trans hname) hqdeferred _ className)
      intro hkept
      exact hkept ⟨rfl, ⟨q, hq, hqname, hne, hrefers⟩, himmediate⟩
    · have hnone : ∀ q ∈ p.visibleOf n.reactor, q.name = name →
          ¬ Overrides.isDeferred (p.entryAt n q) = true := by
        intro q hq hqname hqdeferred
        by_cases hsame : q.id = w.id
        · exact hdeferred (hid q hq hsame ▸ hqdeferred)
        · exact hearlier ⟨q, hq, hqname.trans hname.symm, hsame,
            (isDeferred_entryAt.mp hqdeferred).2⟩
      apply iff_of_true (lastWrite?_of_immediate hentries hw hd hsets hnone className)
      intro h
      exact hearlier h.earlier

/-- The same for both styles. -/
theorem lastWrite?_iff (hd : d.id = n.reactor)
    (hid : ∀ q ∈ p.visibleOf n.reactor, q.id = w.id → q = w)
    (hsets : ∀ q ∈ p.visibleOf n.reactor, q.name = name → n.Sets q → q = w)
    (style : Options.Style) (className : String) :
    lastWrite? name (fieldWrites (p.blockOf d).skeleton
        ((p.overridesOf n).construction style className)) = some (p.entryAt n w).write ↔
      ¬ p.Undone style n w := by
  cases style with
  | targeted => exact lastWrite?_targeted_iff hentries hw hd hid hsets className
  | bulkMerge =>
    have hlast := find?_entries hentries hw
    obtain ⟨_, hname⟩ := Catalog.lastNamed?_eq_some hw
    have hentry : (p.entryAt n w).name = name := hname
    rw [← hentry] at hlast
    refine iff_of_true ?_ fun h => ?_
    · rw [← hentry]
      exact lastWrite?_bulkMerge _ hlast className
    · cases h.style

end last

/-! ## Loaded programs -/

/-- Every instance of a loaded program is below the root. -/
theorem mem_nodesOf (h : Model.Loaded p) {i : NodeId} {n : Assembly.Node}
    (hn : p.assembly.node? i = some n) : n ∈ p.nodesOf := by
  obtain ⟨_, _, _, hroot⟩ := h.assembly.toRooted.exists_root (Assembly.hasNode_of_some hn)
  exact h.assembly.toRooted.mem_preorder ((closed_of_loaded h).preorder hroot).2 hn

/-- A parameter that an instance of a loaded program sets is the last one of its name. -/
theorem eq_of_sets (h : Model.Loaded p) {n : Assembly.Node}
    (hn : p.assembly.node? n.id = some n) {w : Catalog.Parameter} {name : String}
    (hw : Catalog.lastNamed? (p.visibleOf n.reactor) name = some w) {q : Catalog.Parameter}
    (hq : q ∈ p.visibleOf n.reactor) (hname : q.name = name) (hset : n.Sets q) : q = w := by
  have hp := closed_of_loaded h
  have hr := hp.reactor hn
  obtain ⟨x, hx, hxq⟩ := hset
  obtain ⟨q', hq', hfind⟩ := (h.assembly.assignments hn x hx).target
  rw [hxq, hp.parameter?_of_visibleOf hr hq] at hq'
  cases hq'
  unfold Catalog.findParameter? at hfind
  rw [hp.visible? hr, hname] at hfind
  -- the assignment was bound by name, so its target is what the name stands for
  have hlast : Catalog.lastNamed? (p.visibleOf n.reactor) name = some q := Option.some.inj hfind
  rw [hw] at hlast
  exact (Option.some.inj hlast).symm

/-- In an accepted model without an error, the last parameter of a name is the one that the name
    stands for, and its value is the one that the values of an instance have for the name.  The
    field of the name ends with this value exactly if it is not undone. -/
theorem last_write_iff {m : Model} {p : Program} (hload : m.elaborate = some (.ok p))
    {vs : List Diagnostic} (hvs : p.validate? = some vs) (hno : hasErrors vs = false)
    (o : Options) (style : Options.Style) {n : Assembly.Node}
    (hn : p.assembly.node? n.id = some n) {name : String}
    (hname : p.catalog.HasName n.reactor name) :
    ∃ w lines os statements e,
      p.catalog.findParameter? n.reactor name = some (some w) ∧
      ((p.styled o style).skeleton n.reactor).run = some (.ok lines) ∧
      ((p.styled o style).overridesAt n).run = some (os, []) ∧
      (p.styled o style).construction? os = some statements ∧
      ((p.styled o style).entry ⟨w.id, n.id⟩).run = some (some e, []) ∧
      os.get? name = some e.text ∧
      (e.origin = .override ↔ n.Sets w) ∧
      (lastWrite? name (fieldWrites lines statements) = some e.write ↔
        ¬ p.Undone style n w) := by
  obtain ⟨hloaded, _⟩ := Model.loaded_of_elaborate hload
  have hp := closed_of_loaded hloaded
  have hp' : (p.styled o style).Closed := hp.withOptions _
  have hvs' : (p.styled o style).validate? = some vs := (validate?_withOptions _).trans hvs
  have hmem : n ∈ (p.styled o style).nodesOf := mem_nodesOf hloaded hn
  have hr := hp.reactor hn
  obtain ⟨d, hd⟩ := Catalog.hasReactor_iff.mp hr
  have hdr : d.id = n.reactor := hp.catalog.reactor_id hd
  -- the parameter that the name stands for
  obtain ⟨found, hfound, hnone, _⟩ := hp.catalog.findParameter?_spec hr name
  obtain ⟨w, rfl⟩ : ∃ w, found = some w :=
    Option.ne_none_iff_exists'.mp fun h => hnone.mp h hname
  have hw : Catalog.lastNamed? (p.visibleOf n.reactor) name = some w := by
    unfold Catalog.findParameter? at hfound
    rw [hp.visible? hr] at hfound
    exact Option.some.inj hfound
  obtain ⟨hwmem, _⟩ := Catalog.lastNamed?_eq_some hw
  have hskeleton : ((p.styled o style).skeleton n.reactor).run =
      some (.ok ((p.styled o style).blockOf d).skeleton) := by
    rw [← hdr]
    exact skeleton_of_valid hp' hvs' hno (hdr ▸ hd)
  have hentries := entries_of_nil (slotReports_of_valid hp' hvs' hno hmem)
  have hid : ∀ q ∈ p.visibleOf n.reactor, q.id = w.id → q = w := by
    intro q hq hsame
    have hfoundq := hp.parameter?_of_visibleOf hr hq
    rw [hsame, hp.parameter?_of_visibleOf hr hwmem] at hfoundq
    exact (Option.some.inj hfoundq).symm
  refine ⟨w, _, _, _, _, hfound, hskeleton, overridesAt_of_valid hp' hvs' hno hmem,
    construction?_eq hp' hn, entry_of_valid hp' hvs' hno hmem hwmem, ?_, origin_entryAt, ?_⟩
  · unfold Overrides.get?
    rw [find?_entries hentries hw]
    rfl
  · rw [← undone_styled o]
    exact lastWrite?_iff hentries hw hdr hid (fun q hq => eq_of_sets hloaded hn hw hq) style _

/-- A root that sets a parameter.  An earlier one of the name has a default that reads a third. -/
def shadowing : Model where
  options := .standard
  reactors :=
    [⟨"A", [],
      [⟨"x", none, [.int 1], .nowhere⟩, ⟨"n", none, [.param (.plain "x")], .nowhere⟩,
        ⟨"n", none, [.int 2], .nowhere⟩],
      .nowhere⟩]
  main := ⟨"main", "A", [⟨"n", [.int 5], .nowhere⟩], [], .nowhere⟩

/-- The reactor of `shadowing`. -/
def shadowed : Catalog.Reactor := ⟨⟨0⟩, "A", [], [⟨0⟩, ⟨1⟩, ⟨2⟩], .nowhere⟩

/-- The parameter that is set. -/
def shadower : Catalog.Parameter := ⟨⟨2⟩, ⟨0⟩, "n", none, [.constant (.int 2)], .nowhere⟩

/-- The root. -/
def shadowingRoot : Assembly.Node :=
  ⟨⟨0⟩, "main", ⟨0⟩, none, [], [⟨⟨2⟩, [.constant (.int 5)], .nowhere⟩], .nowhere⟩

/-- The program of `shadowing`. -/
def shadowingProgram : Program where
  catalog :=
    { reactors := #[shadowed]
      parameters := #[⟨⟨0⟩, ⟨0⟩, "x", none, [.constant (.int 1)], .nowhere⟩,
        ⟨⟨1⟩, ⟨0⟩, "n", none, [.param ⟨0⟩], .nowhere⟩, shadower] }
  assembly := { nodes := #[shadowingRoot] }

/-- The bulk-merge style keeps what is set. -/
theorem last_write_shadowing :
    shadowing.elaborate = some (.ok shadowingProgram) ∧
      (∃ vs, shadowingProgram.validate? = some vs ∧ hasErrors vs = false) ∧
      shadowingProgram.assembly.node? ⟨0⟩ = some shadowingRoot ∧
      shadowingProgram.catalog.HasName ⟨0⟩ "n" ∧
      ∃ lines os statements last,
        ((shadowingProgram.styled .standard .bulkMerge).skeleton ⟨0⟩).run = some (.ok lines) ∧
        ((shadowingProgram.styled .standard .bulkMerge).overridesAt shadowingRoot).run =
          some (os, []) ∧
        (shadowingProgram.styled .standard .bulkMerge).construction? os = some statements ∧
        lastWrite? "n" (fieldWrites lines statements) = some last ∧
        last.origin = .override ∧ os.get? "n" = some last.text := by
  have hload : shadowing.elaborate = some (.ok shadowingProgram) := rfl
  obtain ⟨vs, hvs, hno⟩ : ∃ vs, shadowingProgram.validate? = some vs ∧ hasErrors vs = false :=
    ⟨_, rfl, rfl⟩
  have hn : shadowingProgram.assembly.node? ⟨0⟩ = some shadowingRoot := rfl
  have hname : shadowingProgram.catalog.HasName ⟨0⟩ "n" :=
    ⟨⟨0⟩, .refl, ⟨2⟩, by decide, shadower, rfl, rfl⟩
  obtain ⟨w, lines, os, statements, e, hw, hlines, hos, hstatements, _, hget, horigin, hlast⟩ :=
    last_write_iff hload hvs hno .standard .bulkMerge (n := shadowingRoot) hn hname
  have hshadower : w = shadower :=
    Option.some.inj (Option.some.inj (hw.symm.trans (show _ = some (some shadower) from rfl)))
  have hset : shadowingRoot.Sets w := ⟨_, List.mem_cons_self, hshadower ▸ rfl⟩
  have hkept : ¬ shadowingProgram.Undone .bulkMerge shadowingRoot w := by
    intro h
    cases h.style
  exact ⟨hload, ⟨vs, hvs, hno⟩, hn, hname, lines, os, statements, e.write, hlines, hos, hstatements,
    hlast.mpr hkept, horigin.mpr hset, hget⟩

/-- The targeted style assigns the default of the earlier parameter behind what is set. -/
theorem override_undone :
    shadowing.elaborate = some (.ok shadowingProgram) ∧
      (∃ vs, shadowingProgram.validate? = some vs ∧ hasErrors vs = false) ∧
      shadowingProgram.assembly.node? ⟨0⟩ = some shadowingRoot ∧
      shadowingProgram.catalog.findParameter? ⟨0⟩ "n" = some (some shadower) ∧
      ∃ lines os statements,
        ((shadowingProgram.styled .standard .targeted).skeleton ⟨0⟩).run = some (.ok lines) ∧
        ((shadowingProgram.styled .standard .targeted).overridesAt shadowingRoot).run =
          some (os, []) ∧
        (shadowingProgram.styled .standard .targeted).construction? os = some statements ∧
        os.get? "n" = some "5" ∧
        lastWrite? "n" (fieldWrites lines statements) =
          some ⟨⟨1⟩, "n", .default, "main_lf.x"⟩ := by
  have hload : shadowing.elaborate = some (.ok shadowingProgram) := rfl
  have hp : (shadowingProgram.styled .standard .targeted).Closed :=
    (closed_of_loaded (Model.loaded_of_elaborate hload).1).withOptions _
  have hpath : (shadowingProgram.styled .standard .targeted).pathOf ⟨0⟩ = "main_lf" := by
    have hline : shadowingProgram.assembly.lineUp? ⟨0⟩ = some [shadowingRoot] := by
      unfold Assembly.lineUp?
      rfl
    show ((shadowingProgram.assembly.path? ⟨0⟩).getD "") = _
    unfold Assembly.path? Assembly.names?
    rw [hline]
    rfl
  -- evaluated but for the variable of the root
  have hlast : lastWrite? "n" (fieldWrites
      ((shadowingProgram.styled .standard .targeted).blockOf shadowed).skeleton
      ((shadowingProgram.styled .standard .targeted).statementsOf shadowingRoot)) =
        some ⟨⟨1⟩, "n", .default,
          (shadowingProgram.styled .standard .targeted).pathOf ⟨0⟩ ++ "." ++ "x"⟩ := rfl
  rw [hpath] at hlast
  have hvisible : (shadowingProgram.styled .standard .targeted).catalog.visible? ⟨0⟩ =
      some ((shadowingProgram.styled .standard .targeted).visibleOf ⟨0⟩) :=
    hp.visible? Nat.zero_lt_one
  have hos : ((shadowingProgram.styled .standard .targeted).overridesAt shadowingRoot).run =
      some ((shadowingProgram.styled .standard .targeted).overridesOf shadowingRoot, []) :=
    overridesAt_run hp rfl hvisible
  have hlines : ((shadowingProgram.styled .standard .targeted).skeleton ⟨0⟩).run =
      some (.ok ((shadowingProgram.styled .standard .targeted).blockOf shadowed).skeleton) :=
    skeleton_gives (d := shadowed) hp rfl rfl
  exact ⟨hload, ⟨_, rfl, rfl⟩, rfl, rfl, _, _, _, hlines, hos, construction?_eq hp rfl, rfl, hlast⟩

end Program

end Reactors
