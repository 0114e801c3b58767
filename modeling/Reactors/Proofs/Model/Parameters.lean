import Reactors.Proofs.Model.Reactors

/-! # Binding parameters

    The parameters of the reactors are added first and get their defaults after, when all of them
    are known.  Adding them reports nothing.  At the end, where nothing was reported, a catalog
    gives the very names that the model gives.
-/

namespace Reactors.Model

open Collect (Ends)

variable {c : Catalog}

/-! ## Adding parameters -/

/-- A parameter that is added: as it is written, under an identity, to a reactor. -/
abbrev Added : Type := Parameter × ParamId × ReactorId

/-- A catalog with parameters added to another one. -/
structure Adds (c c' : Catalog) (added : List Added) : Prop where
  closed : c'.Closed
  names : c'.names = c.names
  supers : ∀ r, c'.supers r = c.supers r
  /-- The old parameters are untouched. -/
  kept : ∀ {q x}, c.parameter? q = some x → c'.parameter? q = some x
  /-- The new ones have their names. -/
  found : ∀ y ∈ added, ∃ x, c'.parameter? y.2.1 = some x ∧ x.name = y.1.name
  /-- Each reactor lists its new ones behind the old ones. -/
  own : ∀ r, c'.own r = c.own r ++ (added.filter fun y => y.2.2 = r).map (·.2.1)

namespace Adds

variable {c' c'' : Catalog} {added more : List Added}

theorem refl (hc : c.Closed) : Adds c c [] where
  closed := hc
  names := rfl
  supers _ := rfl
  kept h := h
  found := by simp
  own := by simp

theorem trans (h : Adds c c' added) (h' : Adds c' c'' more) : Adds c c'' (added ++ more) where
  closed := h'.closed
  names := h'.names.trans h.names
  supers r := (h'.supers r).trans (h.supers r)
  kept hx := h'.kept (h.kept hx)
  found := by
    intro y hy
    rcases List.mem_append.mp hy with hy | hy
    · obtain ⟨x, hx, hname⟩ := h.found y hy
      exact ⟨x, h'.kept hx, hname⟩
    · exact h'.found y hy
  own r := by rw [h'.own, h.own, List.filter_append, List.map_append, List.append_assoc]

theorem size (h : Adds c c' added) : c'.reactors.size = c.reactors.size :=
  Catalog.size_of_names h.names

/-- One parameter added without a default. -/
theorem single (hc : c.Closed) {id : ReactorId} {p : Parameter}
    (h : c.addParameter? id p.name p.typeText [] p.span = some c') :
    Adds c c' [(p, c.nextParameter, id)] where
  closed := hc.addParameter h (by simp)
  names := Catalog.names_addParameter h
  supers := Catalog.supers_addParameter h
  kept := by
    intro q x hx
    -- the identity of the new parameter had no parameter before
    have hne : q ≠ c.nextParameter := by
      intro hq
      subst hq
      exact Nat.lt_irrefl _ (Catalog.hasParameter_of_some hx)
    rw [Catalog.parameter?_addParameter h, if_neg hne, hx]
  found := by
    intro y hy
    rw [List.mem_singleton] at hy
    subst hy
    exact ⟨_, by rw [Catalog.parameter?_addParameter h, if_pos rfl], rfl⟩
  own r := by
    rw [Catalog.own_addParameter h]
    by_cases hr : r = id
    · simp [hr]
    · simp [hr, Ne.symm hr]

end Adds

theorem addParameters_ends (hc : c.Closed) {id : ReactorId} (hid : c.HasReactor id)
    (ps : List Parameter) :
    (addParameters id c ps).Ends fun out es => es = [] ∧ Adds c out.1 out.2 ∧
      out.2.map (fun y => (y.2.2, y.1)) = ps.map fun p => (id, p) := by
  induction ps generalizing c with
  | nil => exact .pure ⟨rfl, .refl hc, rfl⟩
  | cons p ps ih =>
    unfold addParameters
    obtain ⟨next, hnext⟩ : ∃ next, c.addParameter? id p.name p.typeText [] p.span = some next :=
      Catalog.exists_addParameter hid
    have hadds := Adds.single hc hnext
    rw [Collect.lookup_bind hnext]
    apply (ih hadds.closed (hid.mono (Nat.le_of_eq hadds.size.symm))).bind
    intro ⟨final, added⟩ es ⟨hes, h₁, h₂⟩
    subst hes
    exact .pure ⟨rfl, hadds.trans h₁, by simp [h₂]⟩

/-- All parameters of all reactors are added, in order. -/
theorem addAllParameters_ends (hc : c.Closed) (ds : List (Reactor × ReactorId))
    (hds : ∀ x ∈ ds, c.HasReactor x.2) :
    (addAllParameters c ds).Ends fun out es => es = [] ∧ Adds c out.1 out.2 ∧
      out.2.map (fun y => (y.2.2, y.1)) =
        ds.flatMap fun x => x.1.parameters.map fun p => (x.2, p) := by
  induction ds generalizing c with
  | nil => exact .pure ⟨rfl, .refl hc, rfl⟩
  | cons x ds ih =>
    unfold addAllParameters
    apply (addParameters_ends hc (hds x (by simp)) x.1.parameters).bind
    intro ⟨next, added⟩ es ⟨hes, h₁, h₂⟩
    subst hes
    refine (ih h₁.closed fun y hy =>
      (hds y (by simp [hy])).mono (Nat.le_of_eq h₁.size.symm)).bind ?_
    intro ⟨final, more⟩ es ⟨hfs, h₃, h₄⟩
    subst hfs
    exact .pure ⟨rfl, h₁.trans h₃, by simp_all⟩

/-! ## Defaults -/

theorem sameNames_setDefault {c' : Catalog} {q : ParamId} {default : List Value}
    (h : c.setDefault? q default = some c') : c.SameNames c' where
  names := Catalog.names_setDefault h
  supers := Catalog.supers_setDefault h
  own := Catalog.own_setDefault h
  parameter x := by
    rw [Catalog.parameter?_setDefault h]
    split
    · rw [Option.map_map]
      rfl
    · rfl

/-- The name of a reactor, if it is there. -/
def nameOf? (c : Catalog) (r : ReactorId) : Option String := (c.reactor? r).map (·.name)

/-- Binding the defaults changes no name, and reports nothing exactly if all their terms are
    bound, each in the scope of the reactor that declares the parameter. -/
theorem bindDefaults_ends (hc : c.Closed) (hn : c.names.Nodup) (added : List Added)
    (hadded : ∀ y ∈ added, c.HasReactor y.2.2 ∧ c.HasParameter y.2.1) :
    (bindDefaults c added).Ends fun c' es => c'.Closed ∧ c.SameNames c' ∧
      (es = [] ↔ ∀ y ∈ added, ∀ t ∈ y.1.default, t.Bound c.nameTable (nameOf? c y.2.2)) := by
  induction added generalizing c with
  | nil => exact .pure ⟨hc, .refl c, by simp⟩
  | cons y ys ih =>
    obtain ⟨p, id, owner⟩ := y
    obtain ⟨howner, hid⟩ := hadded _ List.mem_cons_self
    obtain ⟨d, hd⟩ := Catalog.hasReactor_iff.mp howner
    have hscope : ScopeOf c (.ok owner) (nameOf? c owner) := ⟨d, hd, by simp [nameOf?, hd]⟩
    unfold bindDefaults
    apply (bindTerms_ends p.span hc hn hscope p.default).bind
    intro values es ⟨hes, hvalues⟩
    obtain ⟨c₁, h₁⟩ : ∃ c₁, c.setDefault? id values = some c₁ := Catalog.exists_setDefault hid
    rw [Collect.lookup_bind h₁]
    have hc₁ := hc.setDefault hvalues h₁
    have hsame := sameNames_setDefault h₁
    have hn₁ : c₁.names.Nodup := hsame.names ▸ hn
    have hadded₁ : ∀ y ∈ ys, c₁.HasReactor y.2.2 ∧ c₁.HasParameter y.2.1 := fun y hy =>
      have h := hadded y (by simp [hy])
      ⟨h.1.mono (Nat.le_of_eq (Catalog.size_of_names hsame.names).symm),
        hsame.hasParameter_iff.mpr h.2⟩
    apply (ih hc₁ hn₁ hadded₁).mono
    intro c' fs ⟨hc', hsame', hfs⟩
    -- the scopes of the other parameters are the same, since no reactor was changed
    have hname : ∀ r, nameOf? c₁ r = nameOf? c r := fun r => by
      simp [nameOf?, Catalog.reactor?_setDefault h₁]
    refine ⟨hc', hsame.trans hsame', ?_⟩
    rw [List.append_eq_nil_iff, hes, hfs, hsame.nameTable hc hc₁ hn]
    simp [hname]

/-! ## The names of a catalog and of a model -/

/-- A catalog whose reactors are the given ones, each with what it extends and declares. -/
structure Represents (c : Catalog) (rs : List Reactor) : Prop where
  closed : c.Closed
  distinct : c.names.Nodup
  names : c.names = rs.map (·.name)
  /-- A reactor extends those whose names it gives. -/
  supers : ∀ r ∈ rs, ∀ i, idOf? c r.name = some i → c.supers i = r.supers.filterMap (idOf? c)
  /-- Every name of a reactor that is extended is declared. -/
  declared : ∀ r ∈ rs, ∀ super ∈ r.supers, super ∈ c.names
  /-- A reactor has parameters of the names that it declares. -/
  own : ∀ r ∈ rs, ∀ i, idOf? c r.name = some i → ∀ name,
    (∃ q ∈ c.own i, ∃ x, c.parameter? q = some x ∧ x.name = name) ↔
      ∃ q ∈ r.parameters, q.name = name

namespace Represents

variable {rs : List Reactor}

/-- The reactor of an identity is one of those given. -/
theorem exists_mem (h : Represents c rs) {i : ReactorId} (hi : c.HasReactor i) :
    ∃ r ∈ rs, idOf? c r.name = some i := by
  obtain ⟨d, hd⟩ := Catalog.hasReactor_iff.mp hi
  have hnamed := Catalog.named?_of_nodup h.distinct hd
  have hmem : d.name ∈ c.names := Catalog.named?_isSome_iff.mp ⟨d, hnamed⟩
  rw [h.names] at hmem
  obtain ⟨r, hr, hname⟩ := List.mem_map.mp hmem
  exact ⟨r, hr, by rw [hname, idOf?, hnamed, Option.map_some, h.closed.reactor_id hd]⟩

/-- Every declared name has its identity. -/
theorem exists_id (h : Represents c rs) {name : String} (hname : name ∈ c.names) :
    ∃ i, idOf? c name = some i ∧ c.HasReactor i := by
  obtain ⟨d, hd⟩ := Catalog.named?_isSome_iff.mpr hname
  exact ⟨d.id, by simp [idOf?, hd],
    Catalog.hasReactor_of_some (h.closed.reactor?_of_named hd)⟩

/-- Two reactors given under one name are one reactor. -/
theorem eq_of_name (h : Represents c rs) {r s : Reactor} (hr : r ∈ rs) (hs : s ∈ rs)
    (hname : r.name = s.name) : r = s :=
  List.inj_on_of_nodup_map (h.names ▸ h.distinct) hr hs hname

/-- Extension between identities is extension between names. -/
theorem extends_iff (h : Represents c rs) {a : String} {i j : ReactorId}
    (hi : idOf? c a = some i) :
    c.Extends i j ↔ ∃ b, idOf? c b = some j ∧ Extends rs a b := by
  obtain ⟨d, hd, rfl⟩ := Option.map_eq_some_iff.mp hi
  have ha : a ∈ rs.map (·.name) := h.names ▸ Catalog.named?_isSome_iff.mp ⟨d, hd⟩
  obtain ⟨r, hr, rfl⟩ := List.mem_map.mp ha
  unfold Catalog.Extends
  rw [h.supers r hr d.id hi, List.mem_filterMap]
  constructor
  · intro ⟨b, hb, hj⟩
    exact ⟨b, hj, r, hr, rfl, hb⟩
  · intro ⟨b, hj, s, hs, hname, hb⟩
    rw [h.eq_of_name hs hr hname] at hb
    exact ⟨b, hb, hj⟩

theorem mem_names_of_extends (h : Represents c rs) {a b : String} (hab : Extends rs a b) :
    a ∈ c.names ∧ b ∈ c.names := by
  obtain ⟨r, hr, rfl, hb⟩ := hab
  refine ⟨?_, h.declared r hr b hb⟩
  rw [h.names]
  exact List.mem_map_of_mem hr

/-- What is reached between identities is reached between names. -/
theorem reaches_iff (h : Represents c rs) {a : String} {i j : ReactorId}
    (hi : idOf? c a = some i) :
    c.Reaches i j ↔ ∃ b, idOf? c b = some j ∧ Relation.ReflTransGen (Extends rs) a b := by
  constructor
  · intro hij
    induction hij with
    | refl => exact ⟨a, hi, .refl⟩
    | tail _ hext ih =>
      obtain ⟨b, hb, hab⟩ := ih
      obtain ⟨b', hb', hext⟩ := (h.extends_iff hb).mp hext
      exact ⟨b', hb', hab.tail hext⟩
  · intro ⟨b, hb, hab⟩
    induction hab generalizing j with
    | refl =>
      rw [hi] at hb
      cases hb
      exact .refl
    | tail _ hext ih =>
      obtain ⟨k, hk, _⟩ := h.exists_id (h.mem_names_of_extends hext).1
      exact (ih hk).tail ((h.extends_iff hk).mpr ⟨_, hb, hext⟩)

/-- Two names of one identity are one name. -/
theorem idOf?_inj (h : Represents c rs) {a b : String} {i : ReactorId} (ha : idOf? c a = some i)
    (hb : idOf? c b = some i) : a = b := by
  rw [idOf?_eq_some_iff h.closed h.distinct] at ha hb
  exact Option.some.inj (ha.symm.trans hb)

/-- There is a circle of identities exactly if there is one of names. -/
theorem acyclic_iff (h : Represents c rs) :
    (∀ i, ¬ c.Circular i) ↔ ∀ a, ¬ Relation.TransGen (Extends rs) a a := by
  constructor
  · intro hno a ha
    obtain ⟨b, hab, hba⟩ := Relation.TransGen.head'_iff.mp ha
    obtain ⟨i, hi, _⟩ := h.exists_id (h.mem_names_of_extends hab).1
    obtain ⟨j, hj, _⟩ := h.exists_id (h.mem_names_of_extends hab).2
    exact hno i (Relation.TransGen.head' ((h.extends_iff hi).mpr ⟨b, hj, hab⟩)
      ((h.reaches_iff hj).mpr ⟨a, hi, hba⟩))
  · intro hno i hi
    obtain ⟨j, hij, hji⟩ := Relation.TransGen.head'_iff.mp hi
    -- the circle of identities is followed from the name of its reactor
    have hthere : c.HasReactor i := h.closed.hasReactor_of_reaches (h.closed.hasReactor_super hij) hji
    obtain ⟨r, hr, hri⟩ := h.exists_mem hthere
    obtain ⟨b, hb, hext⟩ := (h.extends_iff hri).mp hij
    obtain ⟨a, ha, hreach⟩ := (h.reaches_iff hb).mp hji
    rw [h.idOf?_inj ha hri] at hreach
    exact hno _ (Relation.TransGen.head' hext hreach)

/-- A catalog that represents reactors gives the names that they give. -/
theorem nameTable_eq (h : Represents c rs) : c.nameTable = namesOf rs := by
  have hreactor : c.nameTable.reactor = (namesOf rs).reactor := by
    funext a
    show (a ∈ c.names) = ∃ r ∈ rs, r.name = a
    rw [h.names]
    exact propext List.mem_map
  have hparameter : c.nameTable.parameter = (namesOf rs).parameter := by
    funext a name
    apply propext
    constructor
    · intro h'
      obtain ⟨d, hd, j, hreach, q, hq, x, hx, hname⟩ := h'
      have ha : idOf? c a = some d.id := by simp [idOf?, hd]
      obtain ⟨b, hb, hab⟩ := (h.reaches_iff ha).mp hreach
      have hj : c.HasReactor j := by
        obtain ⟨e, he, rfl⟩ := Option.map_eq_some_iff.mp hb
        exact Catalog.hasReactor_of_some (h.closed.reactor?_of_named he)
      obtain ⟨r, hr, hrj⟩ := h.exists_mem hj
      rw [h.idOf?_inj hb hrj] at hab
      exact ⟨r, hr, hab, (h.own r hr j hrj name).mp ⟨q, hq, x, hx, hname⟩⟩
    · intro h'
      obtain ⟨r, hr, hreach, hq⟩ := h'
      have hrname : r.name ∈ c.names := h.names ▸ List.mem_map_of_mem hr
      obtain ⟨j, hj, _⟩ := h.exists_id hrname
      -- what extends something is declared, as is what is extended
      have ha : a ∈ c.names := by
        rcases Relation.ReflTransGen.cases_head hreach with rfl | ⟨b, hext, _⟩
        · exact hrname
        · exact (h.mem_names_of_extends hext).1
      obtain ⟨d, hd⟩ := Catalog.named?_isSome_iff.mpr ha
      have hi : idOf? c a = some d.id := by simp [idOf?, hd]
      obtain ⟨q, hq, x, hx, hname⟩ := (h.own r hr j hj name).mpr hq
      exact ⟨d, hd, j, (h.reaches_iff hi).mpr ⟨r.name, hj, hreach⟩, q, hq, x, hx, hname⟩
  show Names.mk c.nameTable.reactor c.nameTable.parameter = namesOf rs
  rw [hreactor, hparameter]

/-- Other defaults change nothing about the names. -/
theorem congr {c' : Catalog} (h : Represents c rs) (hc' : c'.Closed) (hsame : c.SameNames c') :
    Represents c' rs := by
  have hid : idOf? c' = idOf? c := idOf?_congr h.closed hc' h.distinct hsame.names
  refine ⟨hc', hsame.names ▸ h.distinct, hsame.names.trans h.names, ?_, ?_, ?_⟩
  · intro r hr i hi
    rw [hid] at hi ⊢
    rw [hsame.supers, h.supers r hr i hi]
  · intro r hr super hsuper
    rw [hsame.names]
    exact h.declared r hr super hsuper
  · intro r hr i hi name
    rw [hid] at hi
    rw [← h.own r hr i hi name, hsame.own]
    simp only [← Option.map_eq_some_iff, hsame.parameter]

end Represents

/-! ## All passes -/

section declared
variable {rs : List Reactor} {ds : List (Reactor × ReactorId)} {added : List Added}

/-- A declared reactor is found by its name. -/
theorem Declared.idOf? (h : Declared c ds) (hc : c.Closed) (hn : c.names.Nodup)
    {x : Reactor × ReactorId} (hx : x ∈ ds) : idOf? c x.1.name = some x.2 := by
  obtain ⟨d, hd, hname⟩ := h.exists_reactor hx
  rw [idOf?_eq_some_iff hc hn, hd, Option.map_some, hname]

/-- A given reactor is a declared one, under the identity of its name. -/
theorem Declared.mem_of_idOf (h : Declared c ds) (hc : c.Closed) (hn : c.names.Nodup) {r : Reactor}
    (hr : r ∈ ds.map (·.1)) {i : ReactorId} (hi : Model.idOf? c r.name = some i) : (r, i) ∈ ds := by
  obtain ⟨x, hx, rfl⟩ := List.mem_map.mp hr
  rw [h.idOf? hc hn hx] at hi
  cases hi
  exact hx

/-- What was added to a declared reactor is what it declares. -/
theorem added_to_iff (hds : Declared c ds)
    (hadded : added.map (fun y => (y.2.2, y.1)) =
      ds.flatMap fun x => x.1.parameters.map fun p => (x.2, p))
    {r : Reactor} {i : ReactorId} (hx : (r, i) ∈ ds) (p : Parameter) :
    (∃ y ∈ added, y.2.2 = i ∧ y.1 = p) ↔ p ∈ r.parameters := by
  have heq : (i, p) ∈ added.map (fun y => (y.2.2, y.1)) ↔
      (i, p) ∈ ds.flatMap fun x => x.1.parameters.map fun p => (x.2, p) := by
    rw [hadded]
  simp only [List.mem_map, List.mem_flatMap, Prod.mk.injEq] at heq
  rw [heq]
  constructor
  · intro ⟨z, hz, q, hq, hzi, hqp⟩
    -- the identity belongs to one declared reactor
    have hzx : z ∈ ds.filter fun y => y.2 = i := by simp [hz, hzi]
    rw [hds.filter_eq hx, List.mem_singleton] at hzx
    rw [hzx] at hq
    exact hqp ▸ hq
  · intro hp
    exact ⟨(r, i), hx, p, hp, rfl, rfl⟩

/-- The names of declared reactors are those that the model declares. -/
theorem supersDeclared_iff (hds : Declared c ds) (hrs : ds.map (·.1) = rs) :
    (∀ x ∈ ds, ∀ a ∈ x.1.supers, a ∈ c.names) ↔
      ∀ r ∈ rs, ∀ super ∈ r.supers, (namesOf rs).reactor super := by
  rw [← hrs, hds.names]
  simp [namesOf]

/-- The terms of the defaults are bound, in the scopes of the declaring reactors, under names. -/
def DefaultsBound (ν : Names) (rs : List Reactor) : Prop :=
  ∀ r ∈ rs, ∀ q ∈ r.parameters, ∀ t ∈ q.default, t.Bound ν (some r.name)

/-- The parameters that were added are the declared ones, so their defaults are bound together. -/
theorem defaultsBound_iff (hds : Declared c ds) (hrs : ds.map (·.1) = rs)
    (hadded : added.map (fun y => (y.2.2, y.1)) =
      ds.flatMap fun x => x.1.parameters.map fun p => (x.2, p)) (ν : Names) :
    (∀ y ∈ added, ∀ t ∈ y.1.default, t.Bound ν (nameOf? c y.2.2)) ↔ DefaultsBound ν rs := by
  have hall : (∀ y ∈ added, ∀ t ∈ y.1.default, t.Bound ν (nameOf? c y.2.2)) ↔
      ∀ z ∈ added.map (fun y => (y.2.2, y.1)), ∀ t ∈ z.2.default, t.Bound ν (nameOf? c z.1) := by
    rw [List.forall_mem_map]
  have hname : ∀ x ∈ ds, nameOf? c x.2 = some x.1.name := by
    intro x hx
    obtain ⟨d, hd, hdname⟩ := hds.exists_reactor hx
    simp [nameOf?, hd, hdname]
  rw [hall, hadded, ← hrs]
  constructor
  · intro h r hr q hq t ht
    obtain ⟨x, hx, rfl⟩ := List.mem_map.mp hr
    rw [← hname x hx]
    exact h (x.2, q) (List.mem_flatMap.mpr ⟨x, hx, List.mem_map.mpr ⟨q, hq, rfl⟩⟩) t ht
  · intro h z hz t ht
    obtain ⟨x, hx, hz⟩ := List.mem_flatMap.mp hz
    obtain ⟨q, hq, rfl⟩ := List.mem_map.mp hz
    rw [hname x hx]
    exact h x.1 (List.mem_map_of_mem hx) q hq t ht

end declared

/-- What was added to declared reactors is there. -/
theorem exists_of_added {c c' : Catalog} {ds : List (Reactor × ReactorId)} {added : List Added}
    (hds : Declared c' ds) (hadds : Adds c c' added)
    (hadded : added.map (fun y => (y.2.2, y.1)) =
      ds.flatMap fun x => x.1.parameters.map fun p => (x.2, p)) :
    ∀ y ∈ added, c'.HasReactor y.2.2 ∧ c'.HasParameter y.2.1 := by
  intro y hy
  have hmem : (y.2.2, y.1) ∈ ds.flatMap fun x => x.1.parameters.map fun p => (x.2, p) := by
    rw [← hadded]
    exact List.mem_map_of_mem hy
  obtain ⟨x, hx, hz⟩ := List.mem_flatMap.mp hmem
  obtain ⟨q, _, hq⟩ := List.mem_map.mp hz
  have howner : x.2 = y.2.2 := congrArg Prod.fst hq
  obtain ⟨z, hz, _⟩ := hadds.found y hy
  exact ⟨howner ▸ hds.hasReactor hx, Catalog.hasParameter_of_some hz⟩

/-- The passes that bind reactors, one after the other: what they come to, what they report, and what
    is known of it. -/
structure Passes (rs : List Reactor) (c : Catalog) (es : List LoadFault) where
  /-- The reactors, once they are declared. -/
  declared : Catalog
  ds : List (Reactor × ReactorId)
  duplicates : List LoadFault
  /-- The same with their superclasses. -/
  bound : Catalog
  unknown : List LoadFault
  circles : List LoadFault
  /-- The same with their parameters. -/
  grown : Catalog
  added : List Added
  unbound : List LoadFault
  declare : (declareAll {} rs).run = some ((declared, ds), duplicates)
  bind : (bindAllSupers declared ds).run = some (bound, unknown)
  search : (reportCycles bound ds).run = some ((), circles)
  add : (addAllParameters bound ds).run = some ((grown, added), [])
  setDefaults : (bindDefaults grown added).run = some (c, unbound)
  reports : es = duplicates ++ (unknown ++ (circles ++ unbound))
  closed : declared.Closed
  nodup : declared.names.Nodup
  bare : Bare declared
  found : Declared declared ds
  given : duplicates = [] → ds.map (·.1) = rs
  distinct : duplicates = [] ↔ (rs.map (·.name)).Nodup
  same : SameButSupers declared bound
  supers : ∀ r, bound.supers r = declared.supers r ++ (ds.filter fun x => x.2 = r).flatMap fun x =>
    x.1.supers.filterMap (Model.idOf? declared)
  known : unknown = [] ↔ ∀ x ∈ ds, ∀ a ∈ x.1.supers, a ∈ declared.names
  acyclic : circles = [] ↔ ∀ r, ¬ bound.Circular r
  adds : Adds bound grown added
  grouped : added.map (fun y => (y.2.2, y.1)) =
    ds.flatMap fun x => x.1.parameters.map fun p => (x.2, p)
  closed_last : c.Closed
  sameNames : grown.SameNames c
  resolved : unbound = [] ↔ ∀ y ∈ added, ∀ t ∈ y.1.default,
    t.Bound grown.nameTable (nameOf? grown y.2.2)

/-- Binding reactors goes through all passes. -/
theorem bindReactors_passes (rs : List Reactor) :
    (bindReactors rs).Ends fun c es => Nonempty (Passes rs c es) := by
  unfold bindReactors
  apply (declareAll_empty_ends rs).and_run.bind
  intro ⟨c₁, ds⟩ es₁ ⟨⟨hc₁, hn₁, hb₁, hds, hrs, hes₁⟩, hdeclare⟩
  apply (bindAllSupers_ends hc₁ hn₁ ds fun x hx => hds.hasReactor hx).and_run.bind
  intro c₂ es₂ ⟨⟨h₂, hsupers, hes₂⟩, hbind⟩
  have hds₂ := hds.mono h₂.names h₂.size
  apply (reportCycles_ends_iff h₂.closed hds₂).and_run.bind
  intro _ es₃ ⟨hes₃, hsearch⟩
  apply (addAllParameters_ends h₂.closed ds fun x hx => hds₂.hasReactor hx).and_run.bind
  intro ⟨c₃, added⟩ es₄ ⟨⟨hes₄, h₃, hadded⟩, hadd⟩
  subst hes₄
  have hds₃ := hds₂.mono h₃.names h₃.size
  have hn₃ : c₃.names.Nodup := by rw [h₃.names, h₂.names]; exact hn₁
  apply (bindDefaults_ends h₃.closed hn₃ added (exists_of_added hds₃ h₃ hadded)).and_run.mono
  intro c es₅ ⟨⟨hc, hsame, hes₅⟩, hset⟩
  exact ⟨⟨c₁, ds, es₁, c₂, es₂, es₃, c₃, added, es₅, hdeclare, hbind, hsearch, hadd, hset, rfl,
    hc₁, hn₁, hb₁, hds, hrs, hes₁, h₂, hsupers, hes₂, hes₃, h₃, hadded, hc, hsame, hes₅⟩⟩

namespace Passes

variable {rs : List Reactor} {es : List LoadFault} (h : Passes rs c es)

include h

/-- Nothing is reported exactly if no pass reports anything. -/
theorem reports_eq_nil_iff :
    es = [] ↔ h.duplicates = [] ∧ h.unknown = [] ∧ h.circles = [] ∧ h.unbound = [] := by
  refine (Eq.congr_left h.reports).trans ?_
  simp only [List.append_eq_nil_iff]

theorem found_bound : Declared h.bound h.ds := h.found.mono h.same.names h.same.size

theorem found_grown : Declared h.grown h.ds := h.found_bound.mono h.adds.names h.adds.size

theorem names_grown : h.grown.names = h.declared.names := h.adds.names.trans h.same.names

theorem nodup_grown : h.grown.names.Nodup := h.names_grown ▸ h.nodup

theorem idOf?_grown : idOf? h.grown = idOf? h.declared :=
  idOf?_congr h.closed h.adds.closed h.nodup h.names_grown

/-- The parameters were added to declared reactors. -/
theorem there : ∀ y ∈ h.added, h.grown.HasReactor y.2.2 ∧ h.grown.HasParameter y.2.1 :=
  exists_of_added h.found_grown h.adds h.grouped

/-- A reactor extends those it names that are declared. -/
theorem supers_grown {x : Reactor × ReactorId} (hx : x ∈ h.ds) :
    h.grown.supers x.2 = x.1.supers.filterMap (idOf? h.declared) := by
  rw [h.adds.supers, h.supers, h.bare.supers, h.found.filter_eq hx]
  simp

/-- Before the parameters were added, no reactor had any. -/
theorem own_grown (r : ReactorId) :
    h.grown.own r = (h.added.filter fun y => y.2.2 = r).map (·.2.1) := by
  rw [h.adds.own, h.same.own, h.bare.own, List.nil_append]

/-- Reactors that are all declared and all extend what they name are represented. -/
theorem represents (hrs : h.ds.map (·.1) = rs)
    (hknown : ∀ x ∈ h.ds, ∀ a ∈ x.1.supers, a ∈ h.declared.names) : Represents h.grown rs := by
  have hmem : ∀ r ∈ rs, ∀ i, idOf? h.grown r.name = some i → (r, i) ∈ h.ds := by
    intro r hr i hi
    rw [h.idOf?_grown] at hi
    exact h.found.mem_of_idOf h.closed h.nodup (hrs.symm ▸ hr) hi
  refine ⟨h.adds.closed, h.nodup_grown, ?_, ?_, ?_, ?_⟩
  · have hall : (h.ds.map (·.1)).map (·.name) = rs.map (·.name) := by rw [hrs]
    rw [h.names_grown, h.found.names, ← hall, List.map_map]
    rfl
  · intro r hr i hi
    rw [h.supers_grown (hmem r hr i hi), h.idOf?_grown]
  · intro r hr super hsuper
    obtain ⟨x, hx, rfl⟩ := List.mem_map.mp (hrs.symm ▸ hr)
    rw [h.names_grown]
    exact hknown x hx super hsuper
  · intro r hr i hi name
    have hiff := added_to_iff h.found h.grouped (hmem r hr i hi)
    rw [h.own_grown]
    constructor
    · intro ⟨q, hq, x, hx, hname⟩
      obtain ⟨y, hy, rfl⟩ := List.mem_map.mp hq
      rw [List.mem_filter] at hy
      obtain ⟨x', hx', hname'⟩ := h.adds.found y hy.1
      rw [hx] at hx'
      cases hx'
      exact ⟨y.1, (hiff y.1).mp ⟨y, hy.1, by simpa using hy.2, rfl⟩, hname'.symm.trans hname⟩
    · intro ⟨q, hq, hname⟩
      obtain ⟨y, hy, hyi, rfl⟩ := (hiff q).mpr hq
      obtain ⟨x', hx', hname'⟩ := h.adds.found y hy
      refine ⟨y.2.1, List.mem_map.mpr ⟨y, ?_, rfl⟩, x', hx', hname'.trans hname⟩
      simp [hy, hyi]

end Passes

/-- Binding the reactors of a model ends in a closed catalog.  It reports nothing exactly if they
    are well-formed, and represents them then. -/
theorem bindReactors_ends (rs : List Reactor) :
    (bindReactors rs).Ends fun c es => c.Closed ∧ c.names.Nodup ∧ (es = [] → Represents c rs) ∧
      (es = [] ↔ (rs.map (·.name)).Nodup ∧
        (∀ r ∈ rs, ∀ super ∈ r.supers, (namesOf rs).reactor super) ∧
        (∀ a, ¬ Relation.TransGen (Extends rs) a a) ∧ DefaultsBound (namesOf rs) rs) := by
  apply (bindReactors_passes rs).mono
  intro c es ⟨h⟩
  -- once the names are sound, what the later passes find is what the model says
  have hrep : h.duplicates = [] → h.unknown = [] → Represents h.grown rs := fun h₁ h₂ =>
    h.represents (h.given h₁) (h.known.mp h₂)
  have hsupers_iff : h.duplicates = [] →
      (h.unknown = [] ↔ ∀ r ∈ rs, ∀ super ∈ r.supers, (namesOf rs).reactor super) := by
    intro h₁
    rw [h.known, supersDeclared_iff h.found (h.given h₁)]
  have hacyclic_iff : h.duplicates = [] → h.unknown = [] →
      (h.circles = [] ↔ ∀ a, ¬ Relation.TransGen (Extends rs) a a) := by
    intro h₁ h₂
    have hext : h.grown.Extends = h.bound.Extends := Catalog.extends_congr h.adds.supers
    rw [h.acyclic, ← (hrep h₁ h₂).acyclic_iff]
    unfold Catalog.Circular
    rw [hext]
  have hdefaults_iff : h.duplicates = [] → h.unknown = [] →
      (h.unbound = [] ↔ DefaultsBound (namesOf rs) rs) := by
    intro h₁ h₂
    rw [h.resolved, (hrep h₁ h₂).nameTable_eq,
      defaultsBound_iff h.found_grown (h.given h₁) h.grouped]
  refine ⟨h.closed_last, h.sameNames.names ▸ h.nodup_grown, fun hes => ?_, ?_⟩
  · obtain ⟨h₁, h₂, _, _⟩ := h.reports_eq_nil_iff.mp hes
    exact (hrep h₁ h₂).congr h.closed_last h.sameNames
  · rw [← h.distinct]
    refine h.reports_eq_nil_iff.trans ?_
    constructor
    · intro ⟨h₁, h₂, h₃, h₅⟩
      exact ⟨h₁, (hsupers_iff h₁).mp h₂, (hacyclic_iff h₁ h₂).mp h₃, (hdefaults_iff h₁ h₂).mp h₅⟩
    · intro ⟨h₁, hs, ha, hd⟩
      have h₂ := (hsupers_iff h₁).mpr hs
      exact ⟨h₁, h₂, (hacyclic_iff h₁ h₂).mpr ha, (hdefaults_iff h₁ h₂).mpr hd⟩

end Reactors.Model
