import Reactors.Proofs.Assembly.Walk
import Reactors.Proofs.Model.Meaning

/-! # Renaming identities

    Identities count elements in the order in which they are made, so what is declared in another
    order has other identities.  A renaming gives reactors and parameters other identities, and no
    two of them the same one.  Where everything that is looked up under a new identity is what was
    looked up under the old one, with new identities in it, the same holds of everything that is
    found by following identities: lineages, visible parameters, what names stand for, and walks.
-/

namespace Reactors

/-- New identities of reactors and parameters. -/
structure Renaming where
  reactor : ReactorId → ReactorId
  param : ParamId → ParamId
  reactor_injective : Function.Injective reactor
  param_injective : Function.Injective param

variable (ρ : Renaming)

/-! ## Elements under new identities -/

/-- A value that refers to a parameter by its new identity. -/
def Value.rename : Value → Value
  | .constant k => .constant k
  | .param q => .param (ρ.param q)

/-- A parameter with new identities. -/
def Catalog.Parameter.rename (x : Catalog.Parameter) : Catalog.Parameter :=
  { x with
    id := ρ.param x.id
    owner := ρ.reactor x.owner
    default := x.default.map (Value.rename ρ) }

/-- A reactor with new identities. -/
def Catalog.Reactor.rename (d : Catalog.Reactor) : Catalog.Reactor :=
  { d with
    id := ρ.reactor d.id
    supers := d.supers.map ρ.reactor
    params := d.params.map ρ.param }

/-- An assignment with new identities. -/
def Assignment.rename (x : Assignment) : Assignment :=
  { x with target := ρ.param x.target, values := x.values.map (Value.rename ρ) }

/-- A node with new identities; its own one is not changed. -/
def Assembly.Node.rename (n : Assembly.Node) : Assembly.Node :=
  { n with
    reactor := ρ.reactor n.reactor
    assignments := n.assignments.map (Assignment.rename ρ) }

/-- An assembly with new identities of reactors and parameters. -/
def Assembly.rename (a : Assembly) : Assembly := ⟨a.nodes.map (Assembly.Node.rename ρ)⟩

@[simp] theorem Catalog.Parameter.id_rename (x : Catalog.Parameter) :
    (x.rename ρ).id = ρ.param x.id := rfl

@[simp] theorem Catalog.Parameter.owner_rename (x : Catalog.Parameter) :
    (x.rename ρ).owner = ρ.reactor x.owner := rfl

@[simp] theorem Catalog.Parameter.name_rename (x : Catalog.Parameter) :
    (x.rename ρ).name = x.name := rfl

@[simp] theorem Catalog.Parameter.default_rename (x : Catalog.Parameter) :
    (x.rename ρ).default = x.default.map (Value.rename ρ) := rfl

@[simp] theorem Catalog.Reactor.id_rename (d : Catalog.Reactor) :
    (d.rename ρ).id = ρ.reactor d.id := rfl

@[simp] theorem Assignment.target_rename (x : Assignment) :
    (x.rename ρ).target = ρ.param x.target := rfl

@[simp] theorem Assignment.values_rename (x : Assignment) :
    (x.rename ρ).values = x.values.map (Value.rename ρ) := rfl

@[simp] theorem Assignment.span_rename (x : Assignment) : (x.rename ρ).span = x.span := rfl

@[simp] theorem Assembly.Node.id_rename (n : Assembly.Node) : (n.rename ρ).id = n.id := rfl

@[simp] theorem Assembly.Node.name_rename (n : Assembly.Node) : (n.rename ρ).name = n.name := rfl

@[simp] theorem Assembly.Node.reactor_rename (n : Assembly.Node) :
    (n.rename ρ).reactor = ρ.reactor n.reactor := rfl

@[simp] theorem Assembly.Node.assignments_rename (n : Assembly.Node) :
    (n.rename ρ).assignments = n.assignments.map (Assignment.rename ρ) := rfl

@[simp] theorem Value.reference?_rename (v : Value) :
    (v.rename ρ).reference? = v.reference?.map ρ.param := by
  cases v <;> rfl

variable {ρ}

/-! ## Catalogs -/

namespace Catalog

/-- The reactors of a catalog, in another one under new identities, with parameters of the same
    names. -/
structure Outlines (ρ : Renaming) (c c' : Catalog) : Prop where
  size : c'.reactors.size = c.reactors.size
  reactor : ∀ r, c'.reactor? (ρ.reactor r) = (c.reactor? r).map (Reactor.rename ρ)
  name : ∀ q, (c'.parameter? (ρ.param q)).map (·.name) = (c.parameter? q).map (·.name)

/-- All of a catalog, in another one under new identities. -/
structure Renames (ρ : Renaming) (c c' : Catalog) : Prop extends Outlines ρ c c' where
  parameter : ∀ q, c'.parameter? (ρ.param q) = (c.parameter? q).map (Parameter.rename ρ)
  /-- The reactors are the renamed ones, in some order. -/
  reactors : c'.reactors.toList.Perm (c.reactors.toList.map (Reactor.rename ρ))

/-- A search with new identities. -/
def Search.rename (ρ : Renaming) (s : Search) : Search :=
  ⟨s.entered.map ρ.reactor, s.left.map ρ.reactor⟩

variable {c c' : Catalog}

namespace Outlines

variable (h : Outlines ρ c c')
include h

theorem supers (r : ReactorId) : c'.supers (ρ.reactor r) = (c.supers r).map ρ.reactor := by
  unfold Catalog.supers
  rw [h.reactor]
  cases c.reactor? r <;> rfl

/-- A search goes the same way. -/
theorem search (fuel : Nat) (s : Search) (r : ReactorId) :
    c'.search fuel (s.rename ρ) (ρ.reactor r) = (c.search fuel s r).rename ρ := by
  induction fuel generalizing s r with
  | zero => rfl
  | succ fuel ih =>
    have hmem : ρ.reactor r ∈ (s.rename ρ).entered ↔ r ∈ s.entered :=
      List.mem_map_of_injective ρ.reactor_injective
    rw [Catalog.search, Catalog.search, h.supers, List.foldl_map]
    by_cases hr : r ∈ s.entered
    · rw [if_pos hr, if_pos (hmem.mpr hr)]
    · rw [if_neg hr, if_neg fun hr' => hr (hmem.mp hr')]
      have hfold : ∀ xs t, List.foldl (fun t x => c'.search fuel t (ρ.reactor x))
          (Search.rename ρ t) xs = (xs.foldl (c.search fuel) t).rename ρ :=
        fun xs t => List.foldl_hom (Search.rename ρ) fun t x => (ih t x)
      have hstart : { s.rename ρ with entered := ρ.reactor r :: (s.rename ρ).entered } =
          Search.rename ρ { s with entered := r :: s.entered } := rfl
      rw [hstart, hfold]
      simp [Search.rename]

theorem lineage (r : ReactorId) : c'.lineage (ρ.reactor r) = (c.lineage r).map ρ.reactor := by
  unfold Catalog.lineage
  rw [h.size]
  exact congrArg Search.left (h.search (c.reactors.size + 1) ⟨[], []⟩ r)

theorem visibleIds? (r : ReactorId) :
    c'.visibleIds? (ρ.reactor r) = (c.visibleIds? r).map (List.map ρ.param) := by
  unfold Catalog.visibleIds?
  rw [h.lineage, Lookup.mapM_map fun x _ => h.reactor x]
  cases (c.lineage r).mapM c.reactor? with
  | none => rfl
  | some ds => simp [List.flatMap_map, List.map_flatMap, Reactor.rename]

/-! ### Names -/

theorem reactorNamed {name : String} {r : ReactorId} (hr : c.ReactorNamed name r) :
    c'.ReactorNamed name (ρ.reactor r) := by
  obtain ⟨d, hd, hname⟩ := hr
  exact ⟨d.rename ρ, by rw [h.reactor, hd, Option.map_some], hname⟩

theorem parameterNamed_iff {name : String} {q : ParamId} :
    c'.ParameterNamed name (ρ.param q) ↔ c.ParameterNamed name q := by
  unfold ParameterNamed
  rw [← Option.map_eq_some_iff, ← Option.map_eq_some_iff, h.name]

/-- A name stands for the same parameter. -/
theorem standsFor {reactor name : String} {q : ParamId} (hq : c.StandsFor reactor name q) :
    c'.StandsFor reactor name (ρ.param q) := by
  obtain ⟨r, hr, before, after, hids, hname, hafter⟩ := hq
  refine ⟨ρ.reactor r, h.reactorNamed hr, before.map ρ.param, after.map ρ.param, ?_,
    h.parameterNamed_iff.mpr hname, ?_⟩
  · simp [h.visibleIds?, hids]
  · intro y hy
    obtain ⟨x, hx, rfl⟩ := List.mem_map.mp hy
    exact fun hxname => hafter x hx (h.parameterNamed_iff.mp hxname)

/-- A term denotes the same value. -/
theorem denotes {scope : Option String} {t : Model.Term} {v : Value}
    (ht : t.Denotes c scope v) : t.Denotes c' scope (v.rename ρ) := by
  cases ht with
  | plain hscope hq => exact .plain hscope (h.standsFor hq)
  | qualified hq => exact .qualified (h.standsFor hq)
  | time ht => exact .time ht
  | int n => exact .int n
  | float v => exact .float v
  | bool b => exact .bool b
  | string s => exact .string s
  | code text => exact .code text

end Outlines

/-! ### Visible parameters -/

namespace Renames

variable (h : Renames ρ c c')
include h

theorem visible? (r : ReactorId) :
    c'.visible? (ρ.reactor r) = (c.visible? r).map (List.map (Parameter.rename ρ)) := by
  unfold Catalog.visible?
  rw [h.visibleIds?]
  cases c.visibleIds? r with
  | none => rfl
  | some qs => exact Lookup.mapM_map fun q _ => h.parameter q

omit h in
theorem repetitionsFrom (firsts ps : List Parameter) :
    Catalog.repetitionsFrom (firsts.map (Parameter.rename ρ)) (ps.map (Parameter.rename ρ)) =
      (Catalog.repetitionsFrom firsts ps).map
        (Prod.map (Parameter.rename ρ) (Parameter.rename ρ)) := by
  induction ps generalizing firsts with
  | nil => rfl
  | cons p ps ih =>
    have hfirst : (firsts.map (Parameter.rename ρ)).find?
        (fun q => q.name == (p.rename ρ).name) =
        (firsts.find? fun q => q.name == p.name).map (Parameter.rename ρ) := by
      rw [List.find?_map]
      rfl
    rw [List.map_cons, Catalog.repetitionsFrom, Catalog.repetitionsFrom, hfirst]
    cases firsts.find? fun q => q.name == p.name with
    | some first => simp [ih]
    | none =>
      have hnext := ih (firsts ++ [p])
      simpa using hnext

theorem repetitions? (r : ReactorId) :
    c'.repetitions? (ρ.reactor r) = (c.repetitions? r).map
      (List.map (Prod.map (Parameter.rename ρ) (Parameter.rename ρ))) := by
  unfold Catalog.repetitions?
  rw [h.visible?]
  cases c.visible? r with
  | none => rfl
  | some ps => exact congrArg some (repetitionsFrom [] ps)

end Renames

end Catalog

/-! ## Assemblies -/

namespace Assembly

variable (a : Assembly)

theorem node?_rename (i : NodeId) : (a.rename ρ).node? i = (a.node? i).map (Node.rename ρ) := by
  simp [Assembly.rename, node?]

@[simp] theorem root?_rename : (a.rename ρ).root? = a.root? := by
  unfold root? Assembly.rename
  rw [Array.toList_map, List.find?_map, Option.map_map]
  rfl

@[simp] theorem ancestor?_rename (i : NodeId) (steps : Nat) :
    (a.rename ρ).ancestor? i steps = a.ancestor? i steps := by
  induction steps generalizing i with
  | zero => rfl
  | succ steps ih =>
    rw [ancestor?, ancestor?, node?_rename]
    cases a.node? i with
    | none => rfl
    | some n => simp [Node.rename, ih]

theorem lineUp?_rename (i : NodeId) :
    (a.rename ρ).lineUp? i = (a.lineUp? i).map (List.map (Node.rename ρ)) := by
  obtain ⟨k, hk⟩ : ∃ k, i.index = k := ⟨_, rfl⟩
  -- on the place of the node, as the walk goes
  induction k using Nat.strongRecOn generalizing i with
  | ind k ih =>
    rw [lineUp?, lineUp?, node?_rename]
    cases a.node? i with
    | none => rfl
    | some n =>
      have hparent : (n.rename ρ).parent = n.parent := rfl
      simp only [Option.map_some, hparent]
      cases n.parent with
      | none => rfl
      | some p =>
        by_cases hlt : p.index < i.index
        · simp [hlt, ih p.index (hk ▸ hlt) p rfl, Option.map_map, Function.comp_def]
        · simp [hlt]

@[simp] theorem names?_rename (i : NodeId) : (a.rename ρ).names? i = a.names? i := by
  unfold names?
  rw [lineUp?_rename]
  cases a.lineUp? i with
  | none => rfl
  | some ns => simp [Node.rename, Function.comp_def]

@[simp] theorem depth?_rename (i : NodeId) : (a.rename ρ).depth? i = a.depth? i := by
  unfold depth?
  rw [lineUp?_rename]
  cases a.lineUp? i with
  | none => rfl
  | some ns => simp

theorem visit?_rename (fuel : Nat) (stack : List NodeId) :
    (a.rename ρ).visit? fuel stack = (a.visit? fuel stack).map (List.map (Node.rename ρ)) := by
  induction fuel generalizing stack with
  | zero => cases stack <;> rfl
  | succ fuel ih =>
    cases stack with
    | nil => rfl
    | cons i stack =>
      rw [visit?, visit?, node?_rename]
      cases a.node? i with
      | none => rfl
      | some n =>
        have hchildren : (n.rename ρ).children = n.children := rfl
        simp only [Option.map_some, Option.bind_eq_bind, Option.bind_some, hchildren, ih]
        cases a.visit? fuel (n.children ++ stack) <;> rfl

theorem preorder?_rename (i : NodeId) :
    (a.rename ρ).preorder? i = (a.preorder? i).map (List.map (Node.rename ρ)) := by
  have hsize : (a.rename ρ).nodes.size = a.nodes.size := by simp [Assembly.rename]
  unfold preorder?
  rw [hsize, visit?_rename]

end Assembly

/-- All of a program, in another one under new identities. -/
structure Program.Renames (ρ : Renaming) (p p' : Program) : Prop where
  catalog : p.catalog.Renames ρ p'.catalog
  assembly : p'.assembly = p.assembly.rename ρ
  options : p'.options = p.options

end Reactors
