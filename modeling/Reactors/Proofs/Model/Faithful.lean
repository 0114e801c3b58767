import Reactors.Proofs.Model.Acceptance
import Reactors.Proofs.Model.Catalogued
import Reactors.Proofs.Model.Places

/-! # Accepted models are elaborated faithfully

    The program of an accepted model has the reactors, the parameters and the instances of the
    model and no others, in the same order, and what the model refers to by name it refers to by
    the identity of what the name stands for.  The walk down from the root meets the instances in
    the order of their places, and no two of them have the same names down from the root.
-/

namespace Reactors.Model

/-! ## Walks along places -/

section walks
variable {a : Assembly}

/-- The node of a place, as far as walks go. -/
def Place.At (a : Assembly) (x : Place) (n : Assembly.Node) : Prop :=
  a.node? x.id = some n ∧ n.name = x.inst.name ∧ n.parent = x.parent ∧ n.children = x.children

/-- Where names are counted from: from the root, or from below a node that is numbered before. -/
def Below (a : Assembly) (parent : Option NodeId) (above : List String) (start : Nat) : Prop :=
  match parent with
  | none => above = []
  | some p => p.index < start ∧ a.names? p = some above

theorem Below.mono {parent : Option NodeId} {above : List String} {start : Nat}
    (h : Below a parent above start) {later : Nat} (hle : start ≤ later) :
    Below a parent above later := by
  cases parent with
  | none => exact h
  | some p => exact ⟨Nat.lt_of_lt_of_le h.1 hle, h.2⟩

/-- The names down to a node are those above it, and its own one. -/
theorem Below.names {parent : Option NodeId} {above : List String} {start : Nat}
    (h : Below a parent above start) {n : Assembly.Node} (hn : a.node? ⟨start⟩ = some n)
    (hp : n.parent = parent) : a.names? ⟨start⟩ = some (above ++ [n.name]) := by
  cases parent with
  | none =>
    rw [Assembly.names?_root hn hp, show above = [] from h]
    rfl
  | some p =>
    rw [Assembly.names?_child hn hp h.1, h.2]
    rfl

mutual

theorem names_places (parent : Option NodeId) (outer : Option String) (above : List String)
    (start : Nat) (hbelow : Below a parent above start) : (i : Instance) →
    (∀ x ∈ i.places parent outer above start, ∃ n, x.At a n) →
    ∀ x ∈ i.places parent outer above start, a.names? x.id = some x.trail
  | ⟨name, reactor, assignments, children, span⟩, hat => by
    rw [Instance.places] at hat ⊢
    rw [List.forall_mem_cons] at hat ⊢
    obtain ⟨⟨n, hn, hname, hparent, _⟩, hat⟩ := hat
    have hnames := hbelow.names hn hparent
    rw [hname] at hnames
    -- the instances inside are numbered from behind this one, which has its names already
    have hbelow' : Below a (some ⟨start⟩) (above ++ [name]) (start + 1) :=
      ⟨Nat.lt_succ_self start, hnames⟩
    exact ⟨hnames, names_placesAll _ _ _ _ hbelow' children hat⟩

/-- The names from the root down to the node of a place are those of the place. -/
theorem names_placesAll (parent : Option NodeId) (outer : Option String) (above : List String)
    (start : Nat) (hbelow : Below a parent above start) : (is : List Instance) →
    (∀ x ∈ placesAll parent outer above start is, ∃ n, x.At a n) →
    ∀ x ∈ placesAll parent outer above start is, a.names? x.id = some x.trail
  | [], _ => by simp [placesAll]
  | i :: is, hat => by
    rw [placesAll] at hat ⊢
    rw [List.forall_mem_append] at hat ⊢
    exact ⟨names_places _ _ _ _ hbelow i hat.1,
      names_placesAll _ _ _ _ (hbelow.mono (Nat.le_add_right _ _)) is hat.2⟩

end

mutual

theorem visit?_places (parent : Option NodeId) (outer : Option String) (above : List String)
    (start fuel : Nat) (stack : List NodeId) : (i : Instance) → (ns : List Assembly.Node) →
    List.Forall₂ (Place.At a) (i.places parent outer above start) ns →
    a.visit? (fuel + i.size) (⟨start⟩ :: stack) = (a.visit? fuel stack).map (ns ++ ·)
  | ⟨name, reactor, assignments, children, span⟩, ns, hall => by
    rw [Instance.places, List.forall₂_cons_left_iff] at hall
    obtain ⟨n, rest, ⟨hn, _, _, hchildren⟩, hall, rfl⟩ := hall
    rw [Instance.size, ← Nat.add_assoc, Assembly.visit?, hn]
    simp only [Option.bind_eq_bind, Option.bind_some, hchildren]
    rw [visit?_placesAll _ _ _ _ _ _ children rest hall]
    cases a.visit? fuel stack <;> rfl

/-- The walk through instances beside one another meets the nodes of their places in order. -/
theorem visit?_placesAll (parent : Option NodeId) (outer : Option String) (above : List String)
    (start fuel : Nat) (stack : List NodeId) : (is : List Instance) → (ns : List Assembly.Node) →
    List.Forall₂ (Place.At a) (placesAll parent outer above start is) ns →
    a.visit? (fuel + sizeAll is) (starts start is ++ stack) = (a.visit? fuel stack).map (ns ++ ·)
  | [], ns, hall => by
    rw [placesAll, List.forall₂_nil_left_iff] at hall
    subst hall
    simp [sizeAll, starts]
  | i :: is, ns, hall => by
    rw [placesAll] at hall
    obtain ⟨first, rest, rfl, hfirst, hrest⟩ := Lookup.forall₂_append_left hall
    rw [sizeAll, starts, List.cons_append, Nat.add_comm i.size, ← Nat.add_assoc,
      visit?_places _ _ _ _ _ _ i first hfirst, visit?_placesAll _ _ _ _ _ _ is rest hrest,
      Option.map_map]
    congr 1
    funext ms
    simp

end

end walks

/-! ## Names down from the root -/

mutual

theorem trail_places (parent : Option NodeId) (outer : Option String) (above : List String)
    (start : Nat) : (i : Instance) → ∀ x ∈ i.places parent outer above start,
    above ++ [i.name] <+: x.trail
  | ⟨name, reactor, assignments, children, span⟩ => by
    rw [Instance.places, List.forall_mem_cons]
    refine ⟨List.prefix_rfl, ?_⟩
    intro x hx
    obtain ⟨j, _, hj⟩ := trail_placesAll _ _ _ _ children x hx
    exact (List.prefix_append _ _).trans hj

/-- What is inside an instance has the names down to the instance in front. -/
theorem trail_placesAll (parent : Option NodeId) (outer : Option String) (above : List String)
    (start : Nat) : (is : List Instance) → ∀ x ∈ placesAll parent outer above start is,
    ∃ i ∈ is, above ++ [i.name] <+: x.trail
  | [] => by simp [placesAll]
  | i :: is => by
    rw [placesAll, List.forall_mem_append]
    constructor
    · intro x hx
      exact ⟨i, List.mem_cons_self, trail_places _ _ _ _ i x hx⟩
    · intro x hx
      obtain ⟨j, hj, hprefix⟩ := trail_placesAll _ _ _ _ is x hx
      exact ⟨j, List.mem_cons_of_mem _ hj, hprefix⟩

end

/-- Names in front at one depth are the same name. -/
theorem eq_of_trail {above trail : List String} {a b : String} (ha : above ++ [a] <+: trail)
    (hb : above ++ [b] <+: trail) : a = b := by
  have hprefix : above ++ [a] <+: above ++ [b] :=
    List.prefix_of_prefix_length_le ha hb (by simp)
  have heq := hprefix.eq_of_length (by simp)
  exact List.singleton_inj.mp (List.append_cancel_left heq)

section distinct
variable {ν : Names} {around : Option String}

mutual

theorem nodup_trails_places (parent : Option NodeId) (outer : Option String)
    (above : List String) (start : Nat) : {around : Option String} → (i : Instance) →
    i.Bound ν around → ((i.places parent outer above start).map (·.trail)).Nodup
  | _, ⟨name, reactor, assignments, children, span⟩, h => by
    obtain ⟨_, _, hdistinct, hchildren⟩ := Instance.bound_iff.mp h
    rw [Instance.places, List.map_cons, List.nodup_cons]
    refine ⟨?_, nodup_trails_placesAll _ _ _ _ children hdistinct hchildren⟩
    -- everything inside has more names
    intro hmem
    obtain ⟨x, hx, htrail⟩ := List.mem_map.mp hmem
    obtain ⟨j, _, hprefix⟩ := trail_placesAll _ _ _ _ children x hx
    have hlength := hprefix.length_le
    rw [htrail] at hlength
    simp at hlength

/-- Instances beside one another have different names, so no two instances inside them have the
    same names down to them. -/
theorem nodup_trails_placesAll (parent : Option NodeId) (outer : Option String)
    (above : List String) (start : Nat) : {around : Option String} → (is : List Instance) →
    (is.map (·.name)).Nodup → (∀ i ∈ is, i.Bound ν around) →
    ((placesAll parent outer above start is).map (·.trail)).Nodup
  | _, [], _, _ => by simp [placesAll]
  | _, i :: is, hnd, h => by
    rw [List.map_cons, List.nodup_cons] at hnd
    rw [List.forall_mem_cons] at h
    rw [placesAll, List.map_append, List.nodup_append]
    refine ⟨nodup_trails_places _ _ _ _ i h.1,
      nodup_trails_placesAll _ _ _ _ is hnd.2 h.2, ?_⟩
    -- one trail in both would begin with the names of two siblings
    intro trail hmem trail' hmem' heq
    subst heq
    obtain ⟨x, hx, rfl⟩ := List.mem_map.mp hmem
    obtain ⟨y, hy, htrail⟩ := List.mem_map.mp hmem'
    have hfirst := trail_places _ _ _ _ i x hx
    obtain ⟨j, hj, hrest⟩ := trail_placesAll _ _ _ _ is y hy
    rw [htrail] at hrest
    exact hnd.1 (eq_of_trail hfirst hrest ▸ List.mem_map_of_mem hj)

end

end distinct

/-! ## Accepted models -/

/-- What is accepted was bound without a report. -/
theorem bindAll_quiet {m : Model} {p : Program} (h : m.elaborate = some (.ok p)) :
    (bindAll m).Quiet p := by
  unfold elaborate at h
  cases hrun : (bindAll m).run with
  | none => simp [hrun] at h
  | some out =>
    obtain ⟨q, _ | ⟨f, fs⟩⟩ := out
    · simp only [hrun, Option.some.injEq, Except.ok.injEq] at h
      rw [← h]
      exact hrun
    · simp [hrun] at h

/-- A program that is a model with its names bound, and nothing else. -/
structure Faithful (m : Model) (p : Program) : Prop where
  options : p.options = m.options
  /-- The reactors and parameters are those of the model. -/
  catalog : Catalogued m.reactors p.catalog
  /-- The nodes are the instances of the model, each at its place. -/
  instances : List.Forall₂ (Place.Denotes p.catalog) m.places p.assembly.nodes.toList
  /-- The first node is the root. -/
  root : p.assembly.root? = some ⟨0⟩
  /-- The walk from it meets all nodes in order. -/
  order : p.assembly.preorder? ⟨0⟩ = some p.assembly.nodes.toList
  /-- A node has the names of its place down from the root. -/
  names : ∀ x ∈ m.places, p.assembly.names? x.id = some x.trail
  /-- No two nodes have the same ones. -/
  distinct : (m.places.map (·.trail)).Nodup

/-- Options have no part in it, save that they are the same. -/
theorem Faithful.withOptions {m : Model} {p : Program} (h : Faithful m p) (o : Options) :
    Faithful { m with options := o } { p with options := o } :=
  ⟨rfl, h.catalog, h.instances, h.root, h.order, h.names, h.distinct⟩

/-- The nodes of the places, as walks need them. -/
theorem forall₂_at {c : Catalog} {a : Assembly} (ha : a.Linked) {xs : List Place}
    (h : List.Forall₂ (Place.Denotes c) xs a.nodes.toList) :
    List.Forall₂ (Place.At a) xs a.nodes.toList := by
  apply (Lookup.forall₂_mem h).imp
  intro x n ⟨_, hn, hx⟩
  exact ⟨hx.id ▸ ha.node?_of_mem hn, hx.name, hx.parent, hx.children⟩

theorem wellFormed_of_quiet {m : Model} {p : Program} (h : (bindAll m).Quiet p) : m.WellFormed :=
  (h.post (bindAll_ends m)).2.2.mp rfl

/-- A model that is bound without a report is bound faithfully. -/
theorem faithful_of_quiet {m : Model} {p : Program} (h : (bindAll m).Quiet p) : Faithful m p := by
  have hloaded := (h.post (bindAll_ends m)).1
  have hdistinct := nodup_trails_places none none [] 0 m.main (wellFormed_of_quiet h).main
  obtain ⟨_, _, h⟩ := Collect.quiet_bind_iff.mp h
  obtain ⟨catalog, hcatalog, h⟩ := Collect.quiet_bind_iff.mp h
  obtain ⟨assembly, hassembly, h⟩ := Collect.quiet_bind_iff.mp h
  rw [Collect.quiet_pure_iff.mp h] at hloaded ⊢
  have hrs := bindReactors_quiet hcatalog
  have hinstances := placeMain_quiet hrs.closed hassembly
  have hrooted : assembly.Rooted := hloaded.assembly.toRooted
  have hat := forall₂_at hrooted.toLinked hinstances
  have hcount : assembly.nodes.size = m.main.size := by
    have hlength := hinstances.length_eq
    rw [length_places] at hlength
    simpa using hlength.symm
  have hpos : assembly.HasNode ⟨0⟩ := by
    show 0 < assembly.nodes.size
    rw [hcount]
    exact m.main.size_pos
  obtain ⟨_, _, _, hroot⟩ := hrooted.exists_root hpos
  refine ⟨rfl, hrs, hinstances, hroot, ?_, ?_, hdistinct⟩
  · -- the walk may take as many steps as there are nodes, and needs one for each instance
    have hvisit := visit?_places none none [] 0 0 [] m.main _ hat
    show assembly.visit? assembly.nodes.size [⟨0⟩] = _
    rw [hcount, ← Nat.zero_add m.main.size, hvisit]
    simp [Assembly.visit?]
  · refine names_places none none [] 0 rfl m.main fun x hx => ?_
    obtain ⟨n, _, hn⟩ := Lookup.exists_mem_of_forall₂ hat hx
    exact ⟨n, hn⟩

/-- The program of an accepted model is the model with its names bound: nothing is left out, made
    up or put in another order, and every name is bound to what it stands for. -/
theorem elaborate_faithful {m : Model} {p : Program} (h : m.elaborate = some (.ok p)) :
    Faithful m p :=
  faithful_of_quiet (bindAll_quiet h)

/-- A reactor that extends one declared behind it, and an instance that is given a parameter of the
    one around it. -/
def nesting : Model where
  options := .standard
  reactors :=
    [⟨"B", ["A"], [⟨"y", none, [.param (.plain "x"), .int 2], .nowhere⟩], .nowhere⟩,
      ⟨"A", [], [⟨"x", some "int", [.int 1], .nowhere⟩], .nowhere⟩]
  main := ⟨"main", "A", [],
    [⟨"b", "B", [⟨"x", [.param (.qualified "x" "A")], .nowhere⟩], [], .nowhere⟩], .nowhere⟩

/-- The program of `nesting`. -/
def nestingProgram : Program where
  catalog :=
    { reactors := #[⟨⟨0⟩, "B", [⟨1⟩], [⟨0⟩], .nowhere⟩, ⟨⟨1⟩, "A", [], [⟨1⟩], .nowhere⟩]
      parameters :=
        #[⟨⟨0⟩, ⟨0⟩, "y", none, [.param ⟨1⟩, .constant (.int 2)], .nowhere⟩,
          ⟨⟨1⟩, ⟨1⟩, "x", some "int", [.constant (.int 1)], .nowhere⟩] }
  assembly :=
    { nodes := #[⟨⟨0⟩, "main", ⟨1⟩, none, [⟨1⟩], [], .nowhere⟩,
        ⟨⟨1⟩, "b", ⟨0⟩, some ⟨0⟩, [], [⟨⟨1⟩, [.param ⟨1⟩], .nowhere⟩], .nowhere⟩] }

theorem elaborate_nesting : nesting.elaborate = some (.ok nestingProgram) := rfl

theorem places_nesting : nesting.places =
    [⟨nesting.main, ⟨0⟩, none, none, ["main"], [⟨1⟩]⟩,
      ⟨⟨"b", "B", [⟨"x", [.param (.qualified "x" "A")], .nowhere⟩], [], .nowhere⟩, ⟨1⟩,
        some ⟨0⟩, some "A", ["main", "b"], []⟩] := rfl

theorem faithful_nesting :
    nesting.elaborate = some (.ok nestingProgram) ∧ nesting.Faithful nestingProgram :=
  ⟨elaborate_nesting, elaborate_faithful elaborate_nesting⟩

end Reactors.Model
