import Mathlib.Data.List.Forall2
import Reactors.Proofs.Model.Instances
import Reactors.Proofs.Model.Meaning

/-! # The places of instances

    The instances of a model have their places in a tree: each is numbered before those inside it,
    and these before its next sibling.  Placing them without a report makes one node for each
    place, in order, with the name, the reactor, the links and the assignments that it should have.
-/

namespace Reactors.Model

open Collect (quiet_bind_iff quiet_pure_iff quiet_lookup_bind_iff not_quiet_report_bind)

/-! ## Places -/

/-- An instance of a model at its place. -/
structure Place where
  /-- The instance. -/
  inst : Instance
  /-- Its number in the tree. -/
  id : NodeId
  /-- The instance around it; the one that contains all others has none. -/
  parent : Option NodeId
  /-- The name of the reactor of the instance around it. -/
  outer : Option String
  /-- The names from the instance that contains all others down to it. -/
  trail : List String
  /-- The instances inside it, in order. -/
  children : List NodeId

mutual

/-- How many instances there are, itself and those inside it. -/
def Instance.size : Instance → Nat
  | ⟨_, _, _, children, _⟩ => sizeAll children + 1

/-- How many instances there are beside one another, with those inside them. -/
def sizeAll : List Instance → Nat
  | [] => 0
  | i :: is => i.size + sizeAll is

end

theorem Instance.size_pos (i : Instance) : 0 < i.size := by
  cases i
  rw [Instance.size]
  exact Nat.succ_pos _

/-- The numbers of instances beside one another, from `start` on. -/
def starts (start : Nat) : List Instance → List NodeId
  | [] => []
  | i :: is => ⟨start⟩ :: starts (start + i.size) is

mutual

/-- The places of an instance and of those inside it. -/
def Instance.places (parent : Option NodeId) (outer : Option String) (above : List String)
    (start : Nat) : Instance → List Place
  | ⟨name, reactor, assignments, children, span⟩ =>
    { inst := ⟨name, reactor, assignments, children, span⟩
      id := ⟨start⟩
      parent
      outer
      trail := above ++ [name]
      children := starts (start + 1) children } ::
    placesAll (some ⟨start⟩) (some reactor) (above ++ [name]) (start + 1) children

/-- The places of instances beside one another. -/
def placesAll (parent : Option NodeId) (outer : Option String) (above : List String)
    (start : Nat) : List Instance → List Place
  | [] => []
  | i :: is =>
    i.places parent outer above start ++ placesAll parent outer above (start + i.size) is

end

/-- The places of all instances of a model. -/
def places (m : Model) : List Place := m.main.places none none [] 0

/-- A node of an assembly is the instance of a place. -/
structure Place.Denotes (c : Catalog) (x : Place) (n : Assembly.Node) : Prop where
  id : n.id = x.id
  name : n.name = x.inst.name
  reactor : c.ReactorNamed x.inst.reactor n.reactor
  parent : n.parent = x.parent
  children : n.children = x.children
  /-- Its assignments are those of the instance, in order. -/
  assignments : List.Forall₂ (Assignment.Denotes c x.inst.reactor x.outer) x.inst.assignments
    n.assignments
  span : n.span = x.inst.span

/-- A place has one node. -/
theorem Place.Denotes.eq {c : Catalog} (hc : c.Closed) (hn : c.names.Nodup) {x : Place}
    {n n' : Assembly.Node} (h : x.Denotes c n) (h' : x.Denotes c n') : n = n' := by
  have hid := h.id.trans h'.id.symm
  have hname := h.name.trans h'.name.symm
  have hreactor := h.reactor.eq hc hn h'.reactor
  have hparent := h.parent.trans h'.parent.symm
  have hchildren := h.children.trans h'.children.symm
  have hassignments : n.assignments = n'.assignments :=
    List.right_unique_forall₂' (fun _ _ _ hy hy' => hy.eq hc hn hy') h.assignments h'.assignments
  have hspan := h.span.trans h'.span.symm
  cases n
  cases n'
  simp_all

/-! ## Numbers -/

mutual

theorem places_ids (parent : Option NodeId) (outer : Option String) (above : List String)
    (start : Nat) : (i : Instance) →
    (i.places parent outer above start).map (·.id) =
      (List.range' start i.size).map NodeId.mk
  | ⟨name, reactor, assignments, children, span⟩ => by
    rw [Instance.places, Instance.size, List.map_cons, placesAll_ids, List.range'_succ,
      List.map_cons]

/-- The places are numbered without a gap. -/
theorem placesAll_ids (parent : Option NodeId) (outer : Option String) (above : List String)
    (start : Nat) : (is : List Instance) →
    (placesAll parent outer above start is).map (·.id) =
      (List.range' start (sizeAll is)).map NodeId.mk
  | [] => rfl
  | i :: is => by
    rw [placesAll, sizeAll, List.map_append, places_ids, placesAll_ids, ← List.map_append,
      List.range'_append_1]

end

theorem length_places (parent : Option NodeId) (outer : Option String) (above : List String)
    (start : Nat) (i : Instance) : (i.places parent outer above start).length = i.size := by
  have h := congrArg List.length (places_ids parent outer above start i)
  simpa using h

/-! ## Placing without a report -/

variable {c : Catalog} {a a' : Assembly}

/-- More children of a node, behind those it has. -/
def addChildren (ks : List NodeId) (n : Assembly.Node) : Assembly.Node :=
  { n with children := n.children ++ ks }

theorem modify_append {α : Type} {f : α → α} {i : Nat} {xs : List α} (h : i < xs.length)
    (ys : List α) : (xs ++ ys).modify i f = xs.modify i f ++ ys := by
  induction xs generalizing i with
  | nil => simp at h
  | cons x xs ih =>
    cases i with
    | zero => simp
    | succ i => simp [ih (Nat.lt_of_succ_lt_succ h)]

theorem modify_append_length {α : Type} (f : α → α) (xs : List α) (y : α) (ys : List α) :
    (xs ++ y :: ys).modify xs.length f = xs ++ f y :: ys := by
  induction xs with
  | nil => simp
  | cons x xs ih => simp [ih]

/-- An added child stands behind all other nodes, and its parent lists it. -/
theorem nodes_addChild {parent : NodeId} {name : String} {r : ReactorId}
    {xs : List Reactors.Assignment} {span : Span} (hparent : a.HasNode parent)
    (h : a.addChild? parent name r xs span = some a') :
    a'.nodes.toList = a.nodes.toList.modify parent.index (addChildren [a.nextNode]) ++
      [⟨a.nextNode, name, r, some parent, [], xs, span⟩] := by
  unfold Assembly.addChild? Assembly.modifyNode? at h
  split at h
  · cases h
    rw [← modify_append (show parent.index < a.nodes.toList.length from hparent)]
    simp [Assembly.push]
    rfl
  · contradiction

theorem bindAssignments_quiet (hc : c.Closed) {r : ReactorId} {reactor : String}
    (hr : c.ReactorNamed reactor r) {enclosing : Option ReactorId}
    (henclosing : ∀ s, enclosing = some s → c.HasReactor s) {inst : String}
    {xs : List Assignment} {ys : List Reactors.Assignment}
    (h : (bindAssignments c r enclosing inst xs).Quiet ys) :
    List.Forall₂ (Assignment.Denotes c reactor (outerName c enclosing)) xs ys := by
  induction xs generalizing ys with
  | nil =>
    rw [quiet_pure_iff.mp h]
    exact .nil
  | cons x xs ih =>
    obtain ⟨o, ho, h⟩ := quiet_bind_iff.mp h
    obtain ⟨q, rfl, hq⟩ := bindName_quiet hc ho
    obtain ⟨values, hvalues, h⟩ := quiet_bind_iff.mp h
    obtain ⟨rest, hrest, h⟩ := quiet_bind_iff.mp h
    rw [quiet_pure_iff.mp h]
    have hterms := bindTerms_quiet hc (scopeOf_assignmentScope henclosing inst x) hvalues
    exact .cons ⟨hq.standsFor hr, hterms, rfl⟩ (ih hrest)

/-- What placing instances inside a node comes to: the node lists them as further children, and
    behind all other nodes there is one for each place. -/
def Places (c : Catalog) (a a' : Assembly) (parent : NodeId) (ks : List NodeId)
    (xs : List Place) : Prop :=
  ∃ ns, a'.nodes.toList = a.nodes.toList.modify parent.index (addChildren ks) ++ ns ∧
    List.Forall₂ (Place.Denotes c) xs ns

mutual

theorem place_quiet (hc : c.Closed) {a a' : Assembly} {parent : NodeId} {n : Assembly.Node}
    (hparent : a.node? parent = some n) {outer : String} (houter : c.ReactorNamed outer n.reactor)
    (above : List String) : (i : Instance) → (place c parent a i).Quiet a' →
    Places c a a' parent [a.nextNode] (i.places (some parent) (some outer) above a.nodes.size)
  | ⟨name, reactor, assignments, children, span⟩, h => by
    rw [place] at h
    obtain ⟨n', hn', h⟩ := quiet_lookup_bind_iff.mp h
    rw [hparent] at hn'
    cases hn'
    obtain ⟨o, ho, h⟩ := quiet_lookup_bind_iff.mp h
    cases o with
    | some first => exact absurd h not_quiet_report_bind
    | none =>
      obtain ⟨o, ho, h⟩ := quiet_bind_iff.mp h
      obtain ⟨d, rfl, hd⟩ := findReactor_quiet ho
      obtain ⟨bound, hbound, h⟩ := quiet_bind_iff.mp h
      obtain ⟨placed, hplaced, h⟩ := quiet_lookup_bind_iff.mp h
      have hthere := Assembly.hasNode_of_some hparent
      have hreactor := reactorNamed_of_named hc hd
      have hnodes := nodes_addChild hthere hplaced
      have hsize := Assembly.size_addChild hplaced
      -- the new node, inside which everything else is placed
      have hnew : placed.node? a.nextNode =
          some ⟨a.nextNode, name, d.id, some parent, [], bound, span⟩ := by
        rw [Assembly.node?_addChild hplaced]
        simp [(Assembly.ne_nextNode hthere).symm]
      obtain ⟨ns, hns, hall⟩ := placeAll_quiet hc hnew hreactor (above ++ [name]) children h
      have houter' : outerName c (some n.reactor) = some outer := by
        obtain ⟨e, he, hename⟩ := houter
        simp [outerName, he, hename]
      have hassignments := bindAssignments_quiet hc hreactor
        (fun s hs => by cases hs; exact houter.hasReactor) hbound
      rw [houter'] at hassignments
      rw [hsize] at hns hall
      -- the new node was the last one, so listing what is inside it changes no other
      have hlength : a.nextNode.index =
          (a.nodes.toList.modify parent.index (addChildren [a.nextNode])).length := by
        simp [Assembly.nextNode]
      rw [hnodes, hlength, modify_append_length, List.append_assoc, List.singleton_append] at hns
      refine ⟨_ :: ns, by rw [hns], ?_⟩
      rw [Instance.places]
      exact .cons ⟨rfl, rfl, hreactor, rfl, rfl, hassignments, rfl⟩ hall

theorem placeAll_quiet (hc : c.Closed) {a a' : Assembly} {parent : NodeId} {n : Assembly.Node}
    (hparent : a.node? parent = some n) {outer : String} (houter : c.ReactorNamed outer n.reactor)
    (above : List String) : (is : List Instance) → (placeAll c parent a is).Quiet a' →
    Places c a a' parent (starts a.nodes.size is)
      (placesAll (some parent) (some outer) above a.nodes.size is)
  | [], h => by
    rw [quiet_pure_iff.mp h]
    refine ⟨[], ?_, .nil⟩
    have hid : addChildren [] = id := by
      funext n
      simp [addChildren]
    rw [starts, hid, List.modify_id, List.append_nil]
  | i :: is, h => by
    rw [placeAll] at h
    obtain ⟨a₁, h₁, h⟩ := quiet_bind_iff.mp h
    obtain ⟨ns, hns, hall⟩ := place_quiet hc hparent houter above i h₁
    have hthere : parent.index < a.nodes.toList.length := Assembly.hasNode_of_some hparent
    -- the next sibling is numbered behind everything inside this one
    have hsize : a₁.nodes.size = a.nodes.size + i.size := by
      have hlength := congrArg List.length hns
      have hcount := hall.length_eq
      rw [length_places] at hcount
      simpa [hcount] using hlength
    -- the node around them lists this one by now, and is otherwise as it was
    have hparent₁ : a₁.node? parent = some (addChildren [a.nextNode] n) := by
      unfold Assembly.node? at hparent ⊢
      rw [← Array.getElem?_toList] at hparent ⊢
      rw [hns, List.getElem?_append_left (by simpa using hthere), List.getElem?_modify, hparent]
      simp
    obtain ⟨ms, hms, hrest⟩ := placeAll_quiet hc hparent₁ houter above is h
    rw [hsize] at hms hrest
    refine ⟨ns ++ ms, ?_, ?_⟩
    · rw [hms, hns, modify_append (by simpa using hthere), List.modify_modify_eq, List.append_assoc,
        starts]
      congr 2
      funext m
      simp [addChildren, Assembly.nextNode]
    · rw [placesAll]
      exact List.rel_append hall hrest

end

/-- Placing all instances of a model without a report makes one node for each of them. -/
theorem placeMain_quiet (hc : c.Closed) {main : Instance} {a : Assembly}
    (h : (placeMain c main).Quiet a) :
    List.Forall₂ (Place.Denotes c) (main.places none none [] 0) a.nodes.toList := by
  obtain ⟨name, reactor, assignments, children, span⟩ := main
  obtain ⟨o, ho, h⟩ := quiet_bind_iff.mp h
  obtain ⟨d, rfl, hd⟩ := findReactor_quiet ho
  obtain ⟨bound, hbound, h⟩ := quiet_bind_iff.mp h
  have hreactor := reactorNamed_of_named hc hd
  have hassignments := bindAssignments_quiet hc hreactor (by simp) hbound
  obtain ⟨ns, hns, hall⟩ := placeAll_quiet hc (by rw [Assembly.node?_push, if_pos rfl]) hreactor
    [name] children h
  rw [Instance.places, hns]
  exact .cons ⟨rfl, rfl, hreactor, rfl, rfl, hassignments, rfl⟩ hall

end Reactors.Model
