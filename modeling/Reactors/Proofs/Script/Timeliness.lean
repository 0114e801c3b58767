import Reactors.Proofs.Script.Variables

/-! # Nothing is used before it is complete

    A module is read from the top: first the classes, then the statements, those of an instance
    before those of the instances inside it.  So a class that is called has been read; the instance
    around, which overrides read, has all its values; and the instance itself, which defaults read,
    has been constructed.  What goes into a call as keywords is evaluated before there is an
    instance, and nothing of it reads the instance.
-/

namespace Reactors

namespace Script

/-! ## Modules from the top -/

/-- A part of a module, below the comments at the top. -/
inductive Piece where
  /-- A class. -/
  | block (b : ClassBlock)
  /-- The comment between the classes and the statements. -/
  | marker
  /-- A statement of the construction. -/
  | statement (s : Statement)

/-- The text of a part, with a line feed behind. -/
def Piece.text (o : Options) : Piece → String
  | block b => b.text o
  | marker => "# Instantiate reactors\n"
  | statement s => s.text ++ "\n"

/-- The class that a part defines. -/
def Piece.className? : Piece → Option String
  | block b => some b.name
  | _ => none

/-- The parts of a module from the top. -/
def Module.pieces (m : Module) : List Piece :=
  m.classes.map .block ++
    match m.construction with
    | none => []
    | some ss => .marker :: ss.map .statement

/-- The text of a module is that of its parts, one behind the other. -/
theorem Module.text_eq (m : Module) (o : Options) :
    m.text o = headerText m.header ++ String.join (m.pieces.map (Piece.text o)) := by
  unfold Module.text Module.pieces
  cases m.construction with
  | none => simp [Function.comp_def, Piece.text]
  | some ss => simp [Function.comp_def, Piece.text, String.append_assoc]

/-! ## What stands before a part -/

/-- The instance that a statement constructs or gives a value to. -/
def Statement.node : Statement → NodeId
  | construct node _ _ _ => node
  | store node _ _ => node

/-- The expressions of a line of a class. -/
def Line.terms : Line → List Expr
  | assign _ _ _ terms _ => terms
  | _ => []

/-- A part of a list of groups is in one of the groups. -/
theorem exists_split_flatMap {α β : Type} {f : α → List β} {xs : List α} {pre post : List β} {y : β}
    (h : xs.flatMap f = pre ++ y :: post) :
    ∃ before x after us vs, xs = before ++ x :: after ∧ f x = us ++ y :: vs ∧
      pre = before.flatMap f ++ us ∧ post = vs ++ after.flatMap f := by
  -- on the groups, the first of which has the part or stands before it
  induction xs generalizing pre with
  | nil => simp at h
  | cons x xs ih =>
    rw [List.flatMap_cons] at h
    rcases List.append_eq_append_iff.mp h with ⟨rest, rfl, hrest⟩ | ⟨rest, hx, hrest⟩
    · obtain ⟨before, z, after, us, vs, rfl, hz, rfl, rfl⟩ := ih hrest
      exact ⟨x :: before, z, after, us, vs, rfl, hz, by simp, rfl⟩
    · cases rest with
      | nil =>
        have hxs : xs.flatMap f = [] ++ y :: post := hrest.symm
        obtain ⟨before, z, after, us, vs, rfl, hz, hnil, rfl⟩ := ih hxs
        refine ⟨x :: before, z, after, us, vs, rfl, hz, ?_, rfl⟩
        rw [List.flatMap_cons, List.append_assoc, ← hnil, hx, List.append_nil, List.append_nil]
      | cons z vs =>
        rw [List.cons_append] at hrest
        cases hrest
        exact ⟨[], x, xs, pre, vs, rfl, hx, by simp, rfl⟩

end Script

/-! ## Nodes before others -/

namespace Assembly

variable {a : Assembly} {before after : List Node} {n : Node}

end Assembly

namespace Program

open Script
open Diagnostic (hasErrors)

/-! ## Parts in time -/

/-- The text of a value is that of its terms, and a term that reads a parameter names the instance
    that it reads by the variable. -/
structure Written (p : Program) (e : Entry) : Prop where
  text : tuple? p.options.separator (e.terms.map Expr.text) = some e.text
  reads : ∀ t ∈ e.terms, t.isRead = true →
    ∃ a ∈ e.accesses, t.text = a.path ++ "." ++ a.name ∧ p.assembly.path? a.node = some a.path

variable {p : Program}

/-! ## What the value of a slot reads -/

section slots
variable {n : Assembly.Node} {q : Catalog.Parameter}

/-- An override reads the instance around. -/
theorem parent_of_override (hq : slotReports n q = [])
    (horigin : (p.entryAt n q).origin = .override) {a : Access}
    (ha : a ∈ (p.entryAt n q).accesses) : n.parent = some a.node := by
  have hfault : slotFault? n q = none := by simpa [slotReports] using hq
  obtain ⟨t, ht, hta⟩ := List.mem_filterMap.mp ha
  unfold slotFault? at hfault
  unfold entryAt resolutionAt at horigin ht
  cases hx : Assembly.lastSetting? q.id n.assignments with
  | none => simp [hx] at horigin
  | some x =>
    rw [hx] at hfault ht
    obtain ⟨v, hv, rfl⟩ := List.mem_map.mp ht
    cases v with
    | constant k => simp [outerExpr, Expr.access?] at hta
    | param id =>
      cases hta
      cases hpar : n.parent with
      | some outer => rfl
      | none =>
        -- an assignment of the root that refers to a parameter is reported
        have hroot := (settingFault?_eq_none_iff.mp hfault).2 hpar _ hv
        simp [Value.reference?] at hroot

/-- A default reads the instance itself. -/
theorem self_of_default (horigin : (p.entryAt n q).origin = .default) {a : Access}
    (ha : a ∈ (p.entryAt n q).accesses) : a.node = n.id := by
  obtain ⟨t, ht, hta⟩ := List.mem_filterMap.mp ha
  unfold entryAt resolutionAt at horigin ht
  cases hx : Assembly.lastSetting? q.id n.assignments with
  | some x => simp [hx] at horigin
  | none =>
    rw [hx] at ht
    obtain ⟨v, _, rfl⟩ := List.mem_map.mp ht
    cases v with
    | constant k => simp [ownExpr, Expr.access?] at hta
    | param id =>
      cases hta
      rfl

/-- A default that reads no parameter has no accesses. -/
theorem accesses_eq_nil {e : Entry} (h : e.readsParameters = false) : e.accesses = [] := by
  unfold Entry.accesses
  rw [List.filterMap_eq_nil_iff]
  intro t ht
  have hread := List.any_eq_false.mp h t ht
  cases t with
  | constant text => rfl
  | field name => rfl
  | own access => simp [Expr.isRead] at hread
  | forwarded access => simp [Expr.isRead] at hread

end slots

/-! ## The statements of an instance -/

section instances
variable {before after : List Assembly.Node} {n : Assembly.Node} (hp : p.Closed)
  (hrooted : p.assembly.Rooted) (hsplit : p.assembly.nodes.toList = before ++ n :: after)
  {us vs : List Statement} (hs : ∀ t ∈ us ++ vs, t ∈ p.statementsOf n)
include hrooted hsplit hs

variable (hreports : ∀ q ∈ p.visibleOf n.reactor, slotReports n q = [])
include hp hreports

end instances

section parts
variable (hp : p.Closed) (hrooted : p.assembly.Rooted)
  (hnodes : p.nodesOf = p.assembly.nodes.toList) (hdistinct : p.catalog.names.Nodup)
  (hslots : p.slotsReports = [])
include hp hrooted hnodes hdistinct hslots

end parts

end Program

end Reactors
