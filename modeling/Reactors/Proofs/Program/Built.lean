import Reactors.Proofs.Program.Closed

/-! # Programs built edit by edit

    A history is a list of edits.  Each of them is in range if every identity it mentions has its
    element when its turn comes, so each may mention what the edits before it have added.  A history
    of edits in range never fails, and the program that it builds from nothing is closed.

    `Step` says once what each kind of edit does; what holds of every built program is proved by one
    case for each kind.
-/

namespace Reactors.Program

variable {p p' : Program} {e : Edit} {es : List Edit}

/-! ## Edits in range -/

/-- What an assignment sets is there, and so is what it refers to. -/
def KnowsAssignment (p : Program) (x : Assignment) : Prop :=
  p.catalog.HasParameter x.target ∧ ∀ v ∈ x.values, p.catalog.Knows v

/-- Every identity that an edit mentions has its element. -/
def Edit.InRange (p : Program) : Edit → Prop
  | .declare _ _ => True
  | .extend r super => p.catalog.HasReactor r ∧ p.catalog.HasReactor super
  | .addParameter r _ _ default _ => p.catalog.HasReactor r ∧ ∀ v ∈ default, p.catalog.Knows v
  | .setDefault q default => p.catalog.HasParameter q ∧ ∀ v ∈ default, p.catalog.Knows v
  | .addRoot _ r _ => p.catalog.HasReactor r
  | .addChild parent _ r assignments _ =>
    p.assembly.HasNode parent ∧ p.catalog.HasReactor r ∧ ∀ x ∈ assignments, p.KnowsAssignment x
  | .assign i x => p.assembly.HasNode i ∧ p.KnowsAssignment x

instance (c : Catalog) (v : Value) : Decidable (c.Knows v) :=
  match v with
  | .constant k => isTrue (Catalog.knows_constant k)
  | .param q =>
    decidable_of_iff (q.index < c.parameters.size) ⟨Catalog.knows_param, fun h => h q rfl⟩

instance (p : Program) (x : Assignment) : Decidable (p.KnowsAssignment x) :=
  inferInstanceAs (Decidable (x.target.index < p.catalog.parameters.size ∧
    ∀ v ∈ x.values, p.catalog.Knows v))

instance (p : Program) (e : Edit) : Decidable (e.InRange p) :=
  match e with
  | .declare _ _ => isTrue trivial
  | .extend r super =>
    inferInstanceAs (Decidable (r.index < p.catalog.reactors.size ∧
      super.index < p.catalog.reactors.size))
  | .addParameter r _ _ default _ =>
    inferInstanceAs (Decidable (r.index < p.catalog.reactors.size ∧
      ∀ v ∈ default, p.catalog.Knows v))
  | .setDefault q default =>
    inferInstanceAs (Decidable (q.index < p.catalog.parameters.size ∧
      ∀ v ∈ default, p.catalog.Knows v))
  | .addRoot _ r _ => inferInstanceAs (Decidable (r.index < p.catalog.reactors.size))
  | .addChild parent _ r assignments _ =>
    inferInstanceAs (Decidable (parent.index < p.assembly.nodes.size ∧
      r.index < p.catalog.reactors.size ∧ ∀ x ∈ assignments, p.KnowsAssignment x))
  | .assign i x =>
    inferInstanceAs (Decidable (i.index < p.assembly.nodes.size ∧ p.KnowsAssignment x))

/-- An edit in range never fails. -/
theorem exists_edit (h : e.InRange p) : ∃ p', p.edit? e = some p' := by
  cases e with
  | declare name span => exact ⟨_, rfl⟩
  | extend r super =>
    obtain ⟨c, hc⟩ : ∃ c, p.catalog.extend? r super = some c := Catalog.exists_extend h.1
    exact ⟨_, Option.bind_eq_some_iff.mpr ⟨c, hc, rfl⟩⟩
  | addParameter r name typeText default span =>
    obtain ⟨c, hc⟩ : ∃ c, p.catalog.addParameter? r name typeText default span = some c :=
      Catalog.exists_addParameter h.1
    exact ⟨_, Option.bind_eq_some_iff.mpr ⟨c, hc, rfl⟩⟩
  | setDefault q default =>
    obtain ⟨c, hc⟩ : ∃ c, p.catalog.setDefault? q default = some c :=
      Catalog.exists_setDefault h.1
    exact ⟨_, Option.bind_eq_some_iff.mpr ⟨c, hc, rfl⟩⟩
  | addRoot name r span => exact ⟨_, rfl⟩
  | addChild parent name r assignments span =>
    obtain ⟨a, ha⟩ : ∃ a, p.assembly.addChild? parent name r assignments span = some a :=
      Assembly.exists_addChild h.1
    exact ⟨_, Option.bind_eq_some_iff.mpr ⟨a, ha, rfl⟩⟩
  | assign i x =>
    obtain ⟨a, ha⟩ : ∃ a, p.assembly.assign? i x = some a := Assembly.exists_modifyNode h.1
    exact ⟨_, Option.bind_eq_some_iff.mpr ⟨a, ha, rfl⟩⟩

/-! ## What an edit does -/

/-- The program after an edit: the catalog has changed or the assembly has, and nothing else. -/
inductive Step (p : Program) : Edit → Program → Prop
  | declare (name : String) (span : Span) :
    Step p (.declare name span) { p with catalog := p.catalog.declare name span }
  | extend {r super : ReactorId} {c : Catalog} (h : p.catalog.extend? r super = some c) :
    Step p (.extend r super) { p with catalog := c }
  | addParameter {r : ReactorId} {name : String} {typeText : Option String} {default : List Value}
      {span : Span} {c : Catalog}
      (h : p.catalog.addParameter? r name typeText default span = some c) :
    Step p (.addParameter r name typeText default span) { p with catalog := c }
  | setDefault {q : ParamId} {default : List Value} {c : Catalog}
      (h : p.catalog.setDefault? q default = some c) :
    Step p (.setDefault q default) { p with catalog := c }
  | addRoot (name : String) (r : ReactorId) (span : Span) :
    Step p (.addRoot name r span) { p with assembly := p.assembly.addRoot name r span }
  | addChild {parent : NodeId} {name : String} {r : ReactorId} {assignments : List Assignment}
      {span : Span} {a : Assembly}
      (h : p.assembly.addChild? parent name r assignments span = some a) :
    Step p (.addChild parent name r assignments span) { p with assembly := a }
  | assign {i : NodeId} {x : Assignment} {a : Assembly} (h : p.assembly.assign? i x = some a) :
    Step p (.assign i x) { p with assembly := a }

theorem step_of_edit (h : p.edit? e = some p') : p.Step e p' := by
  cases e with
  | declare name span =>
    cases h
    exact .declare name span
  | extend r super =>
    obtain ⟨c, hc, h⟩ := Option.bind_eq_some_iff.mp h
    cases h
    exact .extend hc
  | addParameter r name typeText default span =>
    obtain ⟨c, hc, h⟩ := Option.bind_eq_some_iff.mp h
    cases h
    exact .addParameter hc
  | setDefault q default =>
    obtain ⟨c, hc, h⟩ := Option.bind_eq_some_iff.mp h
    cases h
    exact .setDefault hc
  | addRoot name r span =>
    cases h
    exact .addRoot name r span
  | addChild parent name r assignments span =>
    obtain ⟨a, ha, h⟩ := Option.bind_eq_some_iff.mp h
    cases h
    exact .addChild ha
  | assign i x =>
    obtain ⟨a, ha, h⟩ := Option.bind_eq_some_iff.mp h
    cases h
    exact .assign ha

/-! ## Histories -/

/-- The program after some edits, one after the other. -/
def edits? (p : Program) (es : List Edit) : Lookup Program := es.foldlM edit? p

theorem edits?_cons (h : p.edit? e = some p') (es : List Edit) :
    p.edits? (e :: es) = p'.edits? es := by
  unfold edits?
  rw [List.foldlM_cons, h]
  rfl

/-- Each of some edits is in range when its turn comes. -/
def AllInRange (p : Program) : List Edit → Prop
  | [] => True
  | e :: es => e.InRange p ∧ ∀ p', p.edit? e = some p' → AllInRange p' es

/-- Edits are checked by making them. -/
def decideAllInRange (p : Program) : (es : List Edit) → Decidable (p.AllInRange es)
  | [] => isTrue trivial
  | e :: es =>
    match h : p.edit? e with
    | none => decidable_of_iff (e.InRange p) ⟨fun hr => ⟨hr, by simp [h]⟩, fun hr => hr.1⟩
    | some p' =>
      have := decideAllInRange p' es
      decidable_of_iff (e.InRange p ∧ p'.AllInRange es) (by simp [AllInRange, h])

instance (p : Program) (es : List Edit) : Decidable (p.AllInRange es) := decideAllInRange p es

/-- The program `p` is what the edits `es` build from nothing, each in range. -/
inductive Built : List Edit → Program → Prop
  | nothing : Built [] {}
  | edit {es : List Edit} {p p' : Program} {e : Edit} (hp : Built es p) (hr : e.InRange p)
      (h : p.edit? e = some p') : Built (es ++ [e]) p'

theorem Built.edits (hp : Built es p) {fs : List Edit} (h : p.AllInRange fs) :
    ∃ p', p.edits? fs = some p' ∧ Built (es ++ fs) p' := by
  -- on the edits that are still to come
  induction fs generalizing es p with
  | nil => exact ⟨p, rfl, by simpa using hp⟩
  | cons f fs ih =>
    obtain ⟨p', hp'⟩ := exists_edit h.1
    obtain ⟨p'', hp'', hbuilt⟩ := ih (hp.edit h.1 hp') (h.2 p' hp')
    exact ⟨p'', (edits?_cons hp' fs).trans hp'', by simpa using hbuilt⟩

/-- A history of edits in range builds a program. -/
theorem exists_built (h : AllInRange {} es) : ∃ p, edits? {} es = some p ∧ Built es p :=
  Built.nothing.edits h

theorem built_getD (h : AllInRange {} es) : Built es ((edits? {} es).getD {}) := by
  obtain ⟨p, hp, hbuilt⟩ := exists_built h
  rw [hp]
  exact hbuilt

/-- A history with edits of every kind, in which the name `A` is declared twice. -/
def mixedHistory : List Edit :=
  [.declare "A" .nowhere,
   .addParameter ⟨0⟩ "x" none [.constant (.int 1)] .nowhere,
   .declare "B" .nowhere,
   .extend ⟨1⟩ ⟨0⟩,
   .addParameter ⟨1⟩ "y" none [.constant (.int 2)] .nowhere,
   .setDefault ⟨1⟩ [.param ⟨0⟩],
   .declare "A" .nowhere,
   .addRoot "main" ⟨1⟩ .nowhere,
   .addChild ⟨0⟩ "a" ⟨0⟩ [⟨⟨0⟩, [.param ⟨1⟩], .nowhere⟩] .nowhere,
   .addChild ⟨0⟩ "b" ⟨2⟩ [] .nowhere,
   .assign ⟨1⟩ ⟨⟨0⟩, [.constant (.int 3)], .nowhere⟩]

/-- The program that it builds. -/
def mixedProgram : Program := (edits? {} mixedHistory).getD {}

theorem built_mixed : Built mixedHistory mixedProgram := built_getD (by decide)

/-! ## Built programs are closed -/

/-- The nodes of a program store identities in range. -/
structure NodesInRange (p : Program) : Prop where
  reactor : ∀ {i n}, p.assembly.node? i = some n → p.catalog.HasReactor n.reactor
  assignments : ∀ {i n}, p.assembly.node? i = some n → ∀ x ∈ n.assignments, p.KnowsAssignment x

/-- What the nodes store stays in range where the catalog grows. -/
theorem NodesInRange.grow (h : p.NodesInRange) {c : Catalog}
    (hreactors : p.catalog.reactors.size ≤ c.reactors.size)
    (hparams : p.catalog.parameters.size ≤ c.parameters.size) :
    NodesInRange { p with catalog := c } where
  reactor hn := (h.reactor hn).mono hreactors
  assignments := by
    intro i n hn x hx
    obtain ⟨htarget, hvalues⟩ := h.assignments hn x hx
    exact ⟨htarget.mono hparams, fun v hv => (hvalues v hv).mono hparams⟩

/-- A node that is new or changed stores identities in range, or what a node stored before. -/
theorem NodesInRange.nodes (h : p.NodesInRange) {a : Assembly}
    (hcases : ∀ {i n'}, a.node? i = some n' →
      (p.catalog.HasReactor n'.reactor ∨ ∃ j n, p.assembly.node? j = some n ∧
        n'.reactor = n.reactor) ∧
      ∀ x ∈ n'.assignments, p.KnowsAssignment x ∨ ∃ j n, p.assembly.node? j = some n ∧
        x ∈ n.assignments) :
    NodesInRange { p with assembly := a } where
  reactor := by
    intro i n' hn'
    rcases (hcases hn').1 with hr | ⟨j, n, hn, hr⟩
    · exact hr
    · exact hr ▸ h.reactor hn
  assignments := by
    intro i n' hn' x hx
    rcases (hcases hn').2 x hx with hk | ⟨j, n, hn, hx⟩
    · exact hk
    · exact h.assignments hn x hx

theorem Closed.nodesInRange (h : p.Closed) : p.NodesInRange where
  reactor := h.reactor
  assignments hn x hx := ⟨h.target hn x hx, h.values hn x hx⟩

theorem closed_of_nodesInRange (hc : p.catalog.Closed) (ha : p.assembly.Linked)
    (h : p.NodesInRange) : p.Closed where
  catalog := hc
  assembly := ha
  reactor := h.reactor
  target hn x hx := (h.assignments hn x hx).1
  values hn x hx := (h.assignments hn x hx).2

theorem closed_empty : ({} : Program).Closed where
  catalog := Catalog.closed_empty
  assembly := Assembly.linked_empty
  reactor h := by simp [Assembly.node?] at h
  target h := by simp [Assembly.node?] at h
  values h := by simp [Assembly.node?] at h

/-- An edit in range leaves a closed program closed. -/
theorem Closed.edit (hp : p.Closed) (hr : e.InRange p) (h : p.edit? e = some p') : p'.Closed := by
  have hnodes := hp.nodesInRange
  cases step_of_edit h with
  | declare name span =>
    refine closed_of_nodesInRange (hp.catalog.declare name span) hp.assembly (hnodes.grow ?_ ?_)
    · simp
    · exact Nat.le_refl _
  | extend hc =>
    refine closed_of_nodesInRange (hp.catalog.extend hr.2 hc) hp.assembly (hnodes.grow ?_ ?_)
    · exact Nat.le_of_eq (Catalog.size_extend hc).symm
    · exact Nat.le_of_eq (congrArg Array.size (Catalog.parameters_extend hc).symm)
  | addParameter hc =>
    have hparams := Nat.le_of_lt (Nat.lt_of_succ_le
      (Nat.le_of_eq (Catalog.parameters_size_addParameter hc).symm))
    have hdefault := fun v hv => (hr.2 v hv).mono hparams
    refine closed_of_nodesInRange (hp.catalog.addParameter hc hdefault) hp.assembly
      (hnodes.grow ?_ hparams)
    exact Nat.le_of_eq (Catalog.size_addParameter hc).symm
  | setDefault hc =>
    refine closed_of_nodesInRange (hp.catalog.setDefault hr.2 hc) hp.assembly (hnodes.grow ?_ ?_)
    · exact Nat.le_of_eq (congrArg Array.size (Catalog.reactors_setDefault hc).symm)
    · exact Nat.le_of_eq (Catalog.parameters_size_setDefault hc).symm
  | addRoot name r span =>
    refine closed_of_nodesInRange hp.catalog (hp.assembly.push name r [] span) (hnodes.nodes ?_)
    intro i n' hn'
    rw [Assembly.addRoot, Assembly.node?_push] at hn'
    split at hn'
    · cases hn'
      exact ⟨.inl hr, by simp⟩
    · exact ⟨.inr ⟨i, n', hn', rfl⟩, fun x hx => .inr ⟨i, n', hn', hx⟩⟩
  | addChild ha =>
    refine closed_of_nodesInRange hp.catalog (hp.assembly.addChild ha) (hnodes.nodes ?_)
    intro i n' hn'
    rcases Assembly.addChild_cases ha hn' with ⟨_, rfl⟩ | ⟨n, hn, rfl⟩
    · exact ⟨.inl hr.2.1, fun x hx => .inl (hr.2.2 x hx)⟩
    · exact ⟨.inr ⟨i, n, hn, rfl⟩, fun x hx => .inr ⟨i, n, hn, hx⟩⟩
  | assign ha =>
    refine closed_of_nodesInRange hp.catalog (hp.assembly.assign ha) (hnodes.nodes ?_)
    intro j n' hn'
    rw [Assembly.node?_modifyNode ha] at hn'
    split at hn'
    · obtain ⟨n, hn, rfl⟩ := Option.map_eq_some_iff.mp hn'
      refine ⟨.inr ⟨j, n, hn, rfl⟩, ?_⟩
      intro x hx
      rcases List.mem_append.mp hx with hx | hx
      · exact .inr ⟨j, n, hn, hx⟩
      · exact .inl (List.mem_singleton.mp hx ▸ hr.2)
    · exact ⟨.inr ⟨j, n', hn', rfl⟩, fun x hx => .inr ⟨j, n', hn', hx⟩⟩

theorem Built.closed (h : Built es p) : p.Closed := by
  -- on the history
  induction h with
  | nothing => exact closed_empty
  | edit _ hr h ih => exact ih.edit hr h

/-! ## Made programs

    Edits that are not in range make programs as well. -/

theorem Built.made (h : Built es p) : p.Made := by
  induction h with
  | nothing => exact .empty
  | @edit _ _ _ e _ _ h ih => exact ih.edit e h

/-- No edit gives a node a parent that is younger.  An edit out of range may add a node that is its
    own parent. -/
theorem older_edit (ha : ∀ {i n j}, p.assembly.node? i = some n → n.parent = some j →
      j.index ≤ i.index) (h : p.edit? e = some p') {i : NodeId} {n' : Assembly.Node} {j : NodeId}
    (hn' : p'.assembly.node? i = some n') (hj : n'.parent = some j) : j.index ≤ i.index := by
  cases step_of_edit h with
  | declare name span => exact ha hn' hj
  | extend hc => exact ha hn' hj
  | addParameter hc => exact ha hn' hj
  | setDefault hc => exact ha hn' hj
  | addRoot name r span =>
    rw [Assembly.addRoot, Assembly.node?_push] at hn'
    split at hn'
    · cases hn'
      cases hj
    · exact ha hn' hj
  | addChild ha' =>
    rcases Assembly.addChild_cases ha' hn' with ⟨rfl, rfl⟩ | ⟨n, hn, rfl⟩
    · -- the parent was there, or it is the new node itself
      cases hj
      have hthere := Assembly.hasNode_of_modifyNode ha'
      rw [Assembly.HasNode, Assembly.size_push] at hthere
      exact Nat.le_of_lt_succ hthere
    · exact ha hn hj
  | assign ha' =>
    rw [Assembly.node?_modifyNode ha'] at hn'
    split at hn'
    · obtain ⟨n, hn, rfl⟩ := Option.map_eq_some_iff.mp hn'
      exact ha hn hj
    · exact ha hn' hj

theorem Made.older (h : p.Made) {i : NodeId} {n : Assembly.Node} {j : NodeId}
    (hn : p.assembly.node? i = some n) (hj : n.parent = some j) : j.index ≤ i.index := by
  -- on how the program was made
  induction h generalizing i n j with
  | empty => simp [Assembly.node?] at hn
  | load h =>
    obtain ⟨hloaded, _⟩ := Model.loaded_of_elaborate h
    exact Nat.le_of_lt (hloaded.assembly.older hn hj)
  | edit _ e h ih => exact older_edit ih h hn hj
  | options _ _ ih => exact ih hn hj

/-- Where no node is its own parent, the parents of a made program are older than their children. -/
theorem Made.layered (h : p.Made)
    (hself : ∀ {i n}, p.assembly.node? i = some n → n.parent ≠ some i) : p.assembly.Layered := by
  refine ⟨h.placed.2, ?_⟩
  intro j n k hn hk
  have hle := h.older hn hk
  have hne : k.index ≠ j.index := by
    intro heq
    have hsame : k = j := by
      cases k
      cases j
      exact congrArg NodeId.mk heq
    exact hself hn (hsame ▸ hk)
  omega

/-- So the walk down from any node ends. -/
theorem Made.exists_preorder (h : p.Made)
    (hself : ∀ {i n}, p.assembly.node? i = some n → n.parent ≠ some i) {i : NodeId}
    (hi : p.assembly.HasNode i) :
    ∃ ns, p.assembly.preorder? i = some ns ∧ ∀ n ∈ ns, p.assembly.node? n.id = some n :=
  (h.layered hself).exists_preorder_below hi

end Reactors.Program
