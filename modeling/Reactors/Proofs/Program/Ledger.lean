import Mathlib.Logic.Function.Basic
import Reactors.Proofs.Program.Arena

/-! # Counters and a table of names

    An edit of a program takes the next identity of a kind from the number of elements of this kind,
    and a name is looked up among the reactors.  A ledger does neither: it counts the identities it
    has given out, with one counter for each kind, and it keeps a table from names to reactors.  So
    it stores more twice, and its edits change the counters and the table apart from the elements.

    A ledger and a program that undergo the same edits never differ: the elements are the same, the
    counters are the numbers of elements, and the table says what a search finds.
-/

namespace Reactors

/-! ## Finding by name -/

namespace Catalog

variable {c c' : Catalog}

/-- Catalogs with the same names find the same reactors by name. -/
theorem Placed.named?_congr (hc : c.Placed) (hc' : c'.Placed) (h : c'.names = c.names)
    (a : String) : (c'.named? a).map (·.id) = (c.named? a).map (·.id) := by
  ext r
  rw [hc'.named?_iff, hc.named?_iff, h]

/-- The new reactor is the one that its name leads to. -/
theorem Placed.named?_declare (hc : c.Placed) (name : String) (span : Span) (a : String) :
    ((c.declare name span).named? a).map (·.id) =
      if a = name then some c.nextReactor else (c.named? a).map (·.id) := by
  ext r
  rw [(hc.declare name span).named?_iff, names_declare, lastAt_concat]
  by_cases h : name = a
  · have hplace : c.nextReactor = r ↔ r.index = c.names.length := by
      cases r
      simp [nextReactor, names, eq_comm]
    simp [h, hplace]
  · rw [if_neg h, if_neg (Ne.symm h), hc.named?_iff]

end Catalog

/-! ## Ledgers -/

/-- The elements of a program with counters for their identities and a table of names. -/
@[ext] structure Ledger where
  reactors : Array Catalog.Reactor := #[]
  parameters : Array Catalog.Parameter := #[]
  nodes : Array Assembly.Node := #[]
  /-- How many identities of reactors were given out. -/
  reactorCount : Nat := 0
  /-- How many identities of parameters were given out. -/
  parameterCount : Nat := 0
  /-- How many identities of nodes were given out. -/
  nodeCount : Nat := 0
  /-- The reactor of each name. -/
  table : String → Option ReactorId := fun _ => none

namespace Ledger

variable {l l' : Ledger} {p p' : Program} {e : Program.Edit} {es : List Program.Edit}

/-! ## Edits -/

/-- Adds a node without children, with the next identity. -/
def push (l : Ledger) (name : String) (reactor : ReactorId) (parent : Option NodeId)
    (assignments : List Assignment) (span : Span) : Ledger :=
  { l with
    nodeCount := l.nodeCount + 1
    nodes := l.nodes.push
      { id := ⟨l.nodeCount⟩, name, reactor, parent, children := [], assignments, span } }

/-- The ledger after an edit; `none` if the edit changes an element that is not there. -/
def edit? (l : Ledger) : Program.Edit → Lookup Ledger
  | .declare name span =>
    some { l with
      reactorCount := l.reactorCount + 1
      table := Function.update l.table name (some ⟨l.reactorCount⟩)
      reactors := l.reactors.push
        { id := ⟨l.reactorCount⟩, name, supers := [], params := [], span } }
  | .extend r super =>
    if r.index < l.reactors.size then
      some { l with
        reactors := l.reactors.modify r.index fun d => { d with supers := d.supers ++ [super] } }
    else none
  | .addParameter r name typeText default span =>
    if r.index < l.reactors.size then
      let id : ParamId := ⟨l.parameterCount⟩
      some { l with
        parameterCount := l.parameterCount + 1
        parameters := l.parameters.push { id, owner := r, name, typeText, default, span }
        reactors := l.reactors.modify r.index fun d => { d with params := d.params ++ [id] } }
    else none
  | .setDefault q default =>
    if q.index < l.parameters.size then
      some { l with parameters := l.parameters.modify q.index fun x => { x with default } }
    else none
  | .addRoot name r span => some (l.push name r none [] span)
  | .addChild parent name r assignments span =>
    let grown := l.push name r (some parent) assignments span
    if parent.index < grown.nodes.size then
      some { grown with
        nodes := grown.nodes.modify parent.index fun n =>
          { n with children := n.children ++ [⟨l.nodeCount⟩] } }
    else none
  | .assign i x =>
    if i.index < l.nodes.size then
      some { l with
        nodes := l.nodes.modify i.index fun n => { n with assignments := n.assignments ++ [x] } }
    else none

/-- The ledger after some edits, one after the other. -/
def edits? (l : Ledger) (es : List Program.Edit) : Lookup Ledger := es.foldlM edit? l

/-! ## The same edits -/

/-- The ledger that says what a program says: the counters are the numbers of elements, and the
    table is what a search by name finds. -/
def ofProgram (p : Program) : Ledger where
  reactors := p.catalog.reactors
  parameters := p.catalog.parameters
  nodes := p.assembly.nodes
  reactorCount := p.catalog.reactors.size
  parameterCount := p.catalog.parameters.size
  nodeCount := p.assembly.nodes.size
  table := fun a => (p.catalog.named? a).map (·.id)

/-- An edit of a program is the same edit of its ledger. -/
theorem edit_ofProgram (hc : p.catalog.Placed) (hc' : p'.catalog.Placed)
    (h : p.edit? e = some p') : (ofProgram p).edit? e = some (ofProgram p') := by
  have hfound : p'.catalog.names = p.catalog.names → (ofProgram p).table = (ofProgram p').table :=
    fun hnames => (funext (hc.named?_congr hc' hnames)).symm
  cases Program.step_of_edit h with
  | declare name span =>
    refine congrArg some (Ledger.ext rfl rfl rfl ?_ rfl rfl ?_)
    · simp [ofProgram]
    · funext a
      simp only [ofProgram, hc.named?_declare, Function.update_apply]
      rfl
  | extend hx =>
    have htable := hfound (Catalog.names_extend hx)
    unfold Catalog.extend? Catalog.modifyReactor? at hx
    split at hx
    · next hlt =>
      cases hx
      refine (if_pos hlt).trans (congrArg some (Ledger.ext rfl rfl rfl ?_ rfl rfl htable))
      simp [ofProgram]
    · contradiction
  | addParameter hx =>
    have htable := hfound (Catalog.names_addParameter hx)
    obtain ⟨d, hd, rfl⟩ := Catalog.addParameter_eq hx
    unfold Catalog.modifyReactor? at hd
    split at hd
    · next hlt =>
      cases hd
      refine (if_pos hlt).trans (congrArg some (Ledger.ext rfl rfl rfl ?_ ?_ rfl htable))
      · simp [ofProgram]
      · simp [ofProgram]
    · contradiction
  | setDefault hx =>
    have htable := hfound (Catalog.names_setDefault hx)
    unfold Catalog.setDefault? at hx
    split at hx
    · next hlt =>
      cases hx
      refine (if_pos hlt).trans (congrArg some (Ledger.ext rfl rfl rfl rfl ?_ rfl htable))
      simp [ofProgram]
    · contradiction
  | addRoot name r span =>
    refine congrArg some (Ledger.ext rfl rfl rfl rfl rfl ?_ rfl)
    simp [ofProgram, push, Assembly.addRoot, Assembly.push]
  | addChild hx =>
    unfold Assembly.addChild? Assembly.modifyNode? at hx
    split at hx
    · next hlt =>
      cases hx
      refine (if_pos hlt).trans (congrArg some (Ledger.ext rfl rfl rfl rfl rfl ?_ rfl))
      simp [ofProgram, push, Assembly.push]
    · contradiction
  | assign hx =>
    unfold Assembly.assign? Assembly.modifyNode? at hx
    split at hx
    · next hlt =>
      cases hx
      refine (if_pos hlt).trans (congrArg some (Ledger.ext rfl rfl rfl rfl rfl ?_ rfl))
      simp [ofProgram]
    · contradiction

/-- A history builds the same in a ledger as in a program. -/
theorem edits_ofProgram (h : Program.Built es p) : edits? {} es = some (ofProgram p) := by
  -- on the history
  induction h with
  | nothing => rfl
  | edit hp hr h ih =>
    have hplaced := hp.closed.catalog.toPlaced
    have hplaced' := (hp.edit hr h).closed.catalog.toPlaced
    unfold edits? at ih ⊢
    rw [List.foldlM_append, ih]
    simp [edit_ofProgram hplaced hplaced' h]

end Ledger

/-! ## Every history -/

namespace Program

/-- However long a history of edits in range is, it builds a program in which everything that is
    stored twice agrees.  The counters of a ledger end at the numbers of elements, and its table at
    what a search by name finds. -/
theorem history_arena {es : List Edit} (h : AllInRange {} es) :
    ∃ p, edits? {} es = some p ∧ p.Arena es ∧ Ledger.edits? {} es = some (.ofProgram p) := by
  obtain ⟨p, hp, hbuilt⟩ := exists_built h
  exact ⟨p, hp, hbuilt.arena, Ledger.edits_ofProgram hbuilt⟩

theorem history_arena_mixed : AllInRange {} mixedHistory ∧
    ∃ p, edits? {} mixedHistory = some p ∧ p.Arena mixedHistory ∧
      Ledger.edits? {} mixedHistory = some (.ofProgram p) :=
  ⟨by decide, history_arena (by decide)⟩

end Program

end Reactors
