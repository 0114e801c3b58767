import Reactors.Proofs.Program.Arena
import Reactors.Proofs.Script.Values

/-! # What an edit of a program resolves anew

    A slot is resolved by its source, and the source is written in a scope: the instance itself for
    a default, the one around it for an assignment.  Resolving reads more than the source, namely
    the names from the root down to an instance and the names of parameters, but no edit changes
    these for elements that are there.  So an edit resolves a slot anew only if it changes the
    source: an assignment that sets the slot, or a new default where nothing is assigned.
-/

namespace Reactors

/-- An assignment behind all others counts if it sets the parameter. -/
theorem Assembly.lastSetting?_concat (q : ParamId) (as : List Assignment) (x : Assignment) :
    lastSetting? q (as ++ [x]) = if x.target = q then some x else lastSetting? q as := by
  by_cases h : x.target = q <;> simp [lastSetting?, h]

namespace Program

open Script

variable {p p' : Program} {e : Edit} {es : List Edit} {s : Slot}

/-! ## The scopes of a source -/

/-- The expression of a value that is assigned to an instance: a constant is its literal, and a
    reference reads the instance around. -/
inductive Forwarded (p : Program) (host : NodeId) : Value → Expr → Prop
  | constant (k : Constant) : Forwarded p host (.constant k) (.constant (literal k))
  | param {id : ParamId} {q : Catalog.Parameter} {n : Assembly.Node} {outer : NodeId}
      {path : String} (hn : p.assembly.node? host = some n) (hparent : n.parent = some outer)
      (hpath : p.assembly.path? outer = some path) (hq : p.catalog.parameter? id = some q) :
    Forwarded p host (.param id) (.forwarded ⟨outer, path, q.name⟩)

/-- The expression of a value of a default: a constant is its literal, and a reference reads the
    instance itself. -/
inductive Owned (p : Program) (host : NodeId) : Value → Expr → Prop
  | constant (k : Constant) : Owned p host (.constant k) (.constant (literal k))
  | param {id : ParamId} {q : Catalog.Parameter} {path : String}
      (hpath : p.assembly.path? host = some path) (hq : p.catalog.parameter? id = some q) :
    Owned p host (.param id) (.own ⟨host, path, q.name⟩)

/-- What a slot is resolved to by an assignment, whatever else is assigned or a default. -/
inductive ByAssignment (p : Program) (s : Slot) (x : Assignment) :
    Except ParameterFault Resolution → Prop
  | empty {q : Catalog.Parameter} (hq : p.catalog.parameter? s.param = some q)
      (hx : x.values = []) :
    ByAssignment p s x (.error (.emptyInitializer q.name .override x.span))
  | unbound {q : Catalog.Parameter} {n : Assembly.Node}
      (hq : p.catalog.parameter? s.param = some q) (hn : p.assembly.node? s.host = some n)
      (hroot : n.parent = none) (href : ∃ v ∈ x.values, v.reference? ≠ none) :
    ByAssignment p s x (.error (.unboundScope q.name n.name x.span))
  | terms {ts : List Expr} (hx : x.values ≠ [])
      (hts : List.Forall₂ (p.Forwarded s.host) x.values ts) :
    ByAssignment p s x (.ok ⟨ts, .override⟩)

/-- What a slot is resolved to by a default. -/
inductive ByDefault (p : Program) (s : Slot) (default : List Value) :
    Except ParameterFault Resolution → Prop
  | empty {q : Catalog.Parameter} (hq : p.catalog.parameter? s.param = some q)
      (hdefault : default = []) :
    ByDefault p s default (.error (.emptyInitializer q.name .default q.span))
  | terms {ts : List Expr} (hdefault : default ≠ [])
      (hts : List.Forall₂ (p.Owned s.host) default ts) :
    ByDefault p s default (.ok ⟨ts, .default⟩)

theorem Forwarded.eq {host : NodeId} {v : Value} {t u : Expr} (ht : p.Forwarded host v t)
    (hu : p.Forwarded host v u) : t = u := by
  cases ht with
  | constant k =>
    cases hu
    rfl
  | param hn hparent hpath hq =>
    cases hu with
    | param hn' hparent' hpath' hq' =>
      rw [hn] at hn'
      cases hn'
      rw [hparent] at hparent'
      cases hparent'
      rw [hpath] at hpath'
      cases hpath'
      rw [hq] at hq'
      cases hq'
      rfl

theorem Owned.eq {host : NodeId} {v : Value} {t u : Expr} (ht : p.Owned host v t)
    (hu : p.Owned host v u) : t = u := by
  cases ht with
  | constant k =>
    cases hu
    rfl
  | param hpath hq =>
    cases hu with
    | param hpath' hq' =>
      rw [hpath] at hpath'
      cases hpath'
      rw [hq] at hq'
      cases hq'
      rfl

/-- An assignment has one result at most. -/
theorem ByAssignment.eq {x : Assignment} {r r' : Except ParameterFault Resolution}
    (hr : p.ByAssignment s x r) (hr' : p.ByAssignment s x r') : r = r' := by
  cases hr with
  | empty hq hx =>
    cases hr' with
    | empty hq' _ =>
      rw [hq] at hq'
      cases hq'
      rfl
    | unbound _ _ _ href =>
      obtain ⟨v, hv, _⟩ := href
      simp [hx] at hv
    | terms hne _ => exact absurd hx hne
  | unbound hq hn hroot href =>
    obtain ⟨v, hv, href⟩ := href
    cases hr' with
    | empty _ hx => simp [hx] at hv
    | unbound hq' hn' _ _ =>
      rw [hq] at hq'
      cases hq'
      rw [hn] at hn'
      cases hn'
      rfl
    | terms _ hts =>
      -- a reference has no expression where there is no instance around
      obtain ⟨t, _, ht⟩ := Lookup.exists_mem_of_forall₂ hts hv
      cases ht with
      | constant k => exact absurd rfl href
      | param hn' hparent _ _ =>
        rw [hn] at hn'
        cases hn'
        simp [hroot] at hparent
  | terms hne hts =>
    cases hr' with
    | empty _ hx => exact absurd hx hne
    | unbound _ hn hroot href =>
      obtain ⟨v, hv, href⟩ := href
      obtain ⟨t, _, ht⟩ := Lookup.exists_mem_of_forall₂ hts hv
      cases ht with
      | constant k => exact absurd rfl href
      | param hn' hparent _ _ =>
        rw [hn] at hn'
        cases hn'
        simp [hroot] at hparent
    | terms _ hts' => rw [List.right_unique_forall₂' (fun _ _ _ ht hu => ht.eq hu) hts hts']

/-- A default has one result at most. -/
theorem ByDefault.eq {default : List Value} {r r' : Except ParameterFault Resolution}
    (hr : p.ByDefault s default r) (hr' : p.ByDefault s default r') : r = r' := by
  cases hr with
  | empty hq hnil =>
    cases hr' with
    | empty hq' _ =>
      rw [hq] at hq'
      cases hq'
      rfl
    | terms hne _ => exact absurd hnil hne
  | terms hne hts =>
    cases hr' with
    | empty _ hnil => exact absurd hnil hne
    | terms _ hts' => rw [List.right_unique_forall₂' (fun _ _ _ ht hu => ht.eq hu) hts hts']

section sources
variable (hp : p.Closed) {n : Assembly.Node} {q : Catalog.Parameter}
  (hn : p.assembly.node? s.host = some n) (hq : p.catalog.parameter? s.param = some q)
include hp hn

theorem forwarded_outerExpr {v : Value} (hv : p.catalog.Knows v)
    (hroot : n.parent = none → v.reference? = none) :
    p.Forwarded s.host v (p.outerExpr (n.parent.getD n.id) v) := by
  cases v with
  | constant k => exact .constant k
  | param id =>
    obtain ⟨x, hx⟩ := Catalog.hasParameter_iff.mp (hv id rfl)
    cases hpar : n.parent with
    | none => simp [Value.reference?, hpar] at hroot
    | some outer =>
      obtain ⟨m, hm, _⟩ := hp.assembly.parent hn hpar
      have hpath := hp.path? (Assembly.hasNode_of_some hm)
      have hforwarded := Forwarded.param hn hpar hpath hx
      simpa [outerExpr, nameOf_eq hx] using hforwarded

theorem owned_ownExpr {v : Value} (hv : p.catalog.Knows v) :
    p.Owned s.host v (p.ownExpr s.host v) := by
  cases v with
  | constant k => exact .constant k
  | param id =>
    obtain ⟨x, hx⟩ := Catalog.hasParameter_iff.mp (hv id rfl)
    have howned := Owned.param (hp.path? (Assembly.hasNode_of_some hn)) hx
    simpa [ownExpr, nameOf_eq hx] using howned

include hq

/-- The slot of a parameter on an instance, with the identities that these have. -/
theorem resolve_at : Gives (p.resolve s) (match slotFault? n q with
    | some f => .error f
    | none => .ok (p.resolutionAt n q)) := by
  obtain ⟨param, host⟩ := s
  obtain rfl : n.id = host := hp.assembly.id hn
  obtain rfl : q.id = param := hp.catalog.parameter_id hq
  exact resolve_gives hp hn hq

/-- An assignment has a result, whether it is the one that counts or not. -/
theorem byAssignment_at {x : Assignment} (hx : ∀ v ∈ x.values, p.catalog.Knows v) :
    p.ByAssignment s x (match settingFault? n q x with
      | some f => .error f
      | none => .ok ⟨x.values.map (p.outerExpr (n.parent.getD n.id)), .override⟩) := by
  unfold settingFault?
  by_cases hnil : x.values = []
  · rw [if_pos hnil]
    exact .empty hq hnil
  · rw [if_neg hnil]
    by_cases hroot : n.parent = none ∧ ∃ v ∈ x.values, v.reference? ≠ none
    · rw [if_pos hroot]
      exact .unbound hq hn hroot.1 hroot.2
    · rw [if_neg hroot]
      refine .terms hnil ?_
      rw [List.forall₂_map_right_iff, List.forall₂_same]
      intro v hv
      apply forwarded_outerExpr hp hn (hx v hv)
      intro hnone
      by_contra href
      exact hroot ⟨hnone, v, hv, href⟩

/-- A slot that is assigned is resolved by the assignment that counts. -/
theorem byAssignment_of_setting {x : Assignment}
    (hx : p.assembly.settingOf? s = some (some x)) :
    ∃ r, (p.resolve s).run = some r ∧ p.ByAssignment s x r := by
  have hlast : Assembly.lastSetting? q.id n.assignments = some x := by
    rw [hp.catalog.parameter_id hq]
    simpa [Assembly.settingOf?, hn] using hx
  have hmem : x ∈ n.assignments := List.mem_reverse.mp (List.mem_of_find?_eq_some hlast)
  refine ⟨_, resolve_at hp hn hq, ?_⟩
  simp only [slotFault?, resolutionAt, hlast]
  exact byAssignment_at hp hn hq (hp.values hn x hmem)

/-- A default has a result, whether it is the one that counts or not. -/
theorem byDefault_at {default : List Value} (h : ∀ v ∈ default, p.catalog.Knows v) :
    p.ByDefault s default (if default = [] then .error (.emptyInitializer q.name .default q.span)
      else .ok ⟨default.map (p.ownExpr s.host), .default⟩) := by
  by_cases hnil : default = []
  · rw [if_pos hnil]
    exact .empty hq hnil
  · rw [if_neg hnil]
    refine .terms hnil ?_
    rw [List.forall₂_map_right_iff, List.forall₂_same]
    intro v hv
    exact owned_ownExpr hp hn (h v hv)

/-- A slot that is not assigned is resolved by the default. -/
theorem byDefault_of_unset (hx : p.assembly.settingOf? s = some none) :
    ∃ r, (p.resolve s).run = some r ∧ p.ByDefault s q.default r := by
  have hlast : Assembly.lastSetting? q.id n.assignments = none := by
    rw [hp.catalog.parameter_id hq]
    simpa [Assembly.settingOf?, hn] using hx
  have hdefault := byDefault_at hp hn hq (hp.catalog.default hq)
  refine ⟨_, resolve_at hp hn hq, ?_⟩
  simp only [slotFault?, resolutionAt, hlast, hp.assembly.id hn]
  by_cases hnil : q.default = []
  · simpa [hnil] using hdefault
  · simpa [hnil] using hdefault

end sources

/-! ## What edits keep -/

/-- The elements of `p` are in `p'` too, with all that resolving reads except the sources. -/
structure Kept (p p' : Program) : Prop where
  node : ∀ {i n}, p.assembly.node? i = some n →
    ∃ n', p'.assembly.node? i = some n' ∧ n'.name = n.name ∧ n'.parent = n.parent
  parameter : ∀ {q x}, p.catalog.parameter? q = some x →
    ∃ x', p'.catalog.parameter? q = some x' ∧ x'.name = x.name ∧ x'.span = x.span

/-- Whatever is added to a catalog or changed in it, parameters keep their names. -/
theorem Kept.of_parameter {c : Catalog}
    (h : ∀ q x, p.catalog.parameter? q = some x →
      ∃ x', c.parameter? q = some x' ∧ x'.name = x.name ∧ x'.span = x.span) :
    Kept p { p with catalog := c } where
  node hn := ⟨_, hn, rfl, rfl⟩
  parameter hx := h _ _ hx

/-- Whatever is added to an assembly or changed in it, nodes keep their names and their parents. -/
theorem Kept.of_node {a : Assembly}
    (h : ∀ i n, p.assembly.node? i = some n →
      ∃ n', a.node? i = some n' ∧ n'.name = n.name ∧ n'.parent = n.parent) :
    Kept p { p with assembly := a } where
  node hn := h _ _ hn
  parameter hx := ⟨_, hx, rfl, rfl⟩

theorem Kept.hasNode (hk : Kept p p') {i : NodeId} (hi : p.assembly.HasNode i) :
    p'.assembly.HasNode i := by
  obtain ⟨n, hn⟩ := Assembly.hasNode_iff.mp hi
  obtain ⟨n', hn', _⟩ := hk.node hn
  exact Assembly.hasNode_of_some hn'

theorem Kept.hasParameter (hk : Kept p p') {q : ParamId} (hq : p.catalog.HasParameter q) :
    p'.catalog.HasParameter q := by
  obtain ⟨x, hx⟩ := Catalog.hasParameter_iff.mp hq
  obtain ⟨x', hx', _⟩ := hk.parameter hx
  exact Catalog.hasParameter_of_some hx'

theorem Kept.knows (hk : Kept p p') {v : Value} (hv : p.catalog.Knows v) : p'.catalog.Knows v :=
  fun q hq => hk.hasParameter (hv q hq)

theorem kept_edit (h : p.edit? e = some p') : Kept p p' := by
  cases step_of_edit h with
  | declare name span => exact .of_parameter fun q x hx => ⟨x, hx, rfl, rfl⟩
  | extend hc =>
    apply Kept.of_parameter
    intro q x hx
    exact ⟨x, by rw [Catalog.parameter?, Catalog.parameters_extend hc, ← Catalog.parameter?, hx],
      rfl, rfl⟩
  | addParameter hc =>
    apply Kept.of_parameter
    intro q x hx
    refine ⟨x, ?_, rfl, rfl⟩
    rw [Catalog.parameter?_addParameter hc, if_neg, hx]
    rintro rfl
    exact Nat.lt_irrefl _ (Catalog.hasParameter_of_some hx)
  | setDefault hc =>
    apply Kept.of_parameter
    intro q x hx
    rw [Catalog.parameter?_setDefault hc, hx]
    split
    · exact ⟨_, rfl, rfl, rfl⟩
    · exact ⟨_, rfl, rfl, rfl⟩
  | addRoot name r span =>
    apply Kept.of_node
    intro i n hn
    refine ⟨n, ?_, rfl, rfl⟩
    rw [Assembly.addRoot, Assembly.node?_push,
      if_neg (Assembly.ne_nextNode (Assembly.hasNode_of_some hn)), hn]
  | addChild ha =>
    apply Kept.of_node
    intro i n hn
    rw [Assembly.node?_addChild ha, if_neg (Assembly.ne_nextNode (Assembly.hasNode_of_some hn)), hn]
    refine ⟨_, rfl, ?_⟩
    split
    · exact ⟨rfl, rfl⟩
    · exact ⟨rfl, rfl⟩
  | assign ha =>
    apply Kept.of_node
    intro i n hn
    rw [Assembly.node?_modifyNode ha, hn]
    split
    · exact ⟨_, rfl, rfl, rfl⟩
    · exact ⟨_, rfl, rfl, rfl⟩

section kept
variable (hk : Kept p p') (ha : p.assembly.Ordered)
include hk

theorem Kept.nameOf {v : ParamId} (hv : p.catalog.HasParameter v) : p'.nameOf v = p.nameOf v := by
  obtain ⟨x, hx⟩ := Catalog.hasParameter_iff.mp hv
  obtain ⟨x', hx', hname, _⟩ := hk.parameter hx
  rw [nameOf_eq hx', nameOf_eq hx, hname]

include ha

/-- The names from the root down stay the same. -/
theorem Kept.names {i : NodeId} (hi : p.assembly.HasNode i) :
    p'.assembly.names? i = p.assembly.names? i := by
  obtain ⟨k, hk'⟩ : ∃ k, i.index = k := ⟨_, rfl⟩
  -- on the place of the node, for parents are older
  induction k using Nat.strongRecOn generalizing i with
  | ind k ih =>
    obtain ⟨n, hn⟩ := Assembly.hasNode_iff.mp hi
    obtain ⟨n', hn', hname, hparent⟩ := hk.node hn
    cases hp : n.parent with
    | none =>
      rw [Assembly.names?_root hn hp, Assembly.names?_root hn' (hparent.trans hp), hname]
    | some outer =>
      have holder := ha.older hn hp
      obtain ⟨m, hm, _⟩ := ha.parent hn hp
      have houter := ih outer.index (hk' ▸ holder) (Assembly.hasNode_of_some hm) rfl
      rw [Assembly.names?_child hn hp holder, Assembly.names?_child hn' (hparent.trans hp) holder,
        houter, hname]

theorem Kept.path? {i : NodeId} (hi : p.assembly.HasNode i) :
    p'.assembly.path? i = p.assembly.path? i := by
  unfold Assembly.path?
  rw [hk.names ha hi]

theorem Kept.pathOf {i : NodeId} (hi : p.assembly.HasNode i) : p'.pathOf i = p.pathOf i := by
  unfold Program.pathOf
  rw [hk.path? ha hi]

theorem Kept.ownExpr {i : NodeId} (hi : p.assembly.HasNode i) {v : Value}
    (hv : p.catalog.Knows v) : p'.ownExpr i v = p.ownExpr i v := by
  cases v with
  | constant k => rfl
  | param q => simp only [Program.ownExpr, hk.pathOf ha hi, hk.nameOf (hv q rfl)]

theorem Kept.outerExpr {i : NodeId} (hi : p.assembly.HasNode i) {v : Value}
    (hv : p.catalog.Knows v) : p'.outerExpr i v = p.outerExpr i v := by
  cases v with
  | constant k => rfl
  | param q => simp only [Program.outerExpr, hk.pathOf ha hi, hk.nameOf (hv q rfl)]

theorem Forwarded.kept {host : NodeId} {v : Value} {t : Expr} (h : p.Forwarded host v t) :
    p'.Forwarded host v t := by
  cases h with
  | constant k => exact .constant k
  | param hn hparent hpath hq =>
    obtain ⟨n', hn', _, hparent'⟩ := hk.node hn
    obtain ⟨q', hq', hname, _⟩ := hk.parameter hq
    obtain ⟨m, hm, _⟩ := ha.parent hn hparent
    have hpath' := (hk.path? ha (Assembly.hasNode_of_some hm)).trans hpath
    exact hname ▸ .param hn' (hparent'.trans hparent) hpath' hq'

theorem Owned.kept {host : NodeId} (hhost : p.assembly.HasNode host) {v : Value} {t : Expr}
    (h : p.Owned host v t) : p'.Owned host v t := by
  cases h with
  | constant k => exact .constant k
  | param hpath hq =>
    obtain ⟨q', hq', hname, _⟩ := hk.parameter hq
    exact hname ▸ .param ((hk.path? ha hhost).trans hpath) hq'

/-- The result of an assignment is the same whatever else is assigned or a default. -/
theorem ByAssignment.kept {x : Assignment} {r : Except ParameterFault Resolution}
    (h : p.ByAssignment s x r) : p'.ByAssignment s x r := by
  cases h with
  | empty hq hx =>
    obtain ⟨q', hq', hname, _⟩ := hk.parameter hq
    exact hname ▸ .empty hq' hx
  | unbound hq hn hroot href =>
    obtain ⟨q', hq', hname, _⟩ := hk.parameter hq
    obtain ⟨n', hn', hnname, hparent⟩ := hk.node hn
    exact hname ▸ hnname ▸ .unbound hq' hn' (hparent.trans hroot) href
  | terms hx hts => exact .terms hx (hts.imp fun _ _ ht => ht.kept hk ha)

/-- The result of a default is the same whatever else is assigned or a default. -/
theorem ByDefault.kept (hhost : p.assembly.HasNode s.host) {default : List Value}
    {r : Except ParameterFault Resolution} (h : p.ByDefault s default r) :
    p'.ByDefault s default r := by
  cases h with
  | empty hq hnil =>
    obtain ⟨q', hq', hname, hspan⟩ := hk.parameter hq
    exact hname ▸ hspan ▸ .empty hq' hnil
  | terms hne hts => exact .terms hne (hts.imp fun _ _ ht => ht.kept hk ha hhost)

/-- Where the source stays as it is, the slot is resolved as it was. -/
theorem Kept.resolve (hp : p.Closed) (hp' : p'.Closed) {n : Assembly.Node} {q : Catalog.Parameter}
    (hn : p.assembly.node? s.host = some n) (hq : p.catalog.parameter? s.param = some q)
    (hsetting : p'.assembly.settingOf? s = p.assembly.settingOf? s)
    (hdefault : p.assembly.settingOf? s = some none → ∀ q',
      p'.catalog.parameter? s.param = some q' → q'.default = q.default) :
    (p'.resolve s).run = (p.resolve s).run := by
  obtain ⟨n', hn', hname, hparent⟩ := hk.node hn
  obtain ⟨q', hq', hqname, hspan⟩ := hk.parameter hq
  have hid : n'.id = n.id := (hp'.assembly.id hn').trans (hp.assembly.id hn).symm
  have hqid : q'.id = q.id :=
    (hp'.catalog.parameter_id hq').trans (hp.catalog.parameter_id hq).symm
  have hhost := Assembly.hasNode_of_some hn
  have hlast : p.assembly.settingOf? s = some (Assembly.lastSetting? q.id n.assignments) := by
    simp [Assembly.settingOf?, hn, hp.catalog.parameter_id hq]
  have hlast' : Assembly.lastSetting? q'.id n'.assignments =
      Assembly.lastSetting? q.id n.assignments := by
    rw [hlast] at hsetting
    rw [hqid, hp.catalog.parameter_id hq]
    simpa [Assembly.settingOf?, hn', hp.catalog.parameter_id hq] using hsetting
  rw [resolve_at hp hn hq, resolve_at hp' hn' hq']
  unfold slotFault? resolutionAt
  rw [hlast']
  cases hx : Assembly.lastSetting? q.id n.assignments with
  | some x =>
    -- the same assignment, read through the same instance
    have hmem : x ∈ n.assignments := List.mem_reverse.mp (List.mem_of_find?_eq_some hx)
    have houter : p.assembly.HasNode (n.parent.getD n.id) := by
      cases hpar : n.parent with
      | none => exact hp.assembly.id hn ▸ hhost
      | some outer =>
        obtain ⟨m, hm, _⟩ := hp.assembly.parent hn hpar
        exact Assembly.hasNode_of_some hm
    have hterms : x.values.map (p'.outerExpr (n.parent.getD n.id)) =
        x.values.map (p.outerExpr (n.parent.getD n.id)) :=
      List.map_congr_left fun v hv => hk.outerExpr ha houter (hp.values hn x hmem v hv)
    simp only [settingFault?, hname, hparent, hqname, hid, hterms]
  | none =>
    -- the same default, read through the instance itself
    have hsame : q'.default = q.default := hdefault (hx ▸ hlast) q' hq'
    have hterms : q.default.map (p'.ownExpr n.id) = q.default.map (p.ownExpr n.id) :=
      List.map_congr_left fun v hv =>
        hk.ownExpr ha (hp.assembly.id hn ▸ hhost) (hp.catalog.default hq v hv)
    simp only [hsame, hqname, hspan, hid, hterms]

end kept

/-! ## Which edits change a source -/

/-- An edit that changes the source of a slot: an assignment that sets it, or another default where
    nothing is assigned. -/
def Edit.Decides (p : Program) (s : Slot) : Edit → Prop
  | .assign i x => i = s.host ∧ x.target = s.param
  | .setDefault q _ => q = s.param ∧ p.assembly.settingOf? s = some none
  | _ => False

/-- An assignment counts for its slot from the moment it is made. -/
theorem settingOf_assign {x : Assignment} (hx : x.target = s.param)
    (h : p.edit? (.assign s.host x) = some p') :
    p'.assembly.settingOf? s = some (some x) := by
  cases step_of_edit h with
  | assign ha =>
    obtain ⟨n, hn⟩ := Assembly.hasNode_iff.mp (Assembly.hasNode_of_modifyNode ha)
    simp [Assembly.settingOf?, Assembly.node?_modifyNode ha, hn, Assembly.lastSetting?_concat, hx]

/-- No other edit changes which assignment counts for a slot. -/
theorem settingOf_edit (hhost : p.assembly.HasNode s.host) (hd : ¬ e.Decides p s)
    (h : p.edit? e = some p') : p'.assembly.settingOf? s = p.assembly.settingOf? s := by
  obtain ⟨n, hn⟩ := Assembly.hasNode_iff.mp hhost
  cases step_of_edit h with
  | declare name span => rfl
  | extend hc => rfl
  | addParameter hc => rfl
  | setDefault hc => rfl
  | addRoot name r span =>
    simp [Assembly.settingOf?, Assembly.addRoot, Assembly.node?_push, Assembly.ne_nextNode hhost]
  | addChild ha =>
    simp only [Assembly.settingOf?, Assembly.node?_addChild ha, Assembly.ne_nextNode hhost, hn]
    split <;> rfl
  | @assign i x a ha =>
    simp only [Assembly.settingOf?, Assembly.node?_modifyNode ha, hn]
    by_cases hi : s.host = i
    · have hx : x.target ≠ s.param := fun e => hd ⟨hi.symm, e⟩
      simp [hi, Assembly.lastSetting?_concat, hx]
    · simp [hi]

theorem default_setDefault {default : List Value} {q : Catalog.Parameter}
    (h : p.edit? (.setDefault s.param default) = some p')
    (hq : p'.catalog.parameter? s.param = some q) : q.default = default := by
  cases step_of_edit h with
  | setDefault hc =>
    rw [Catalog.parameter?_setDefault hc, if_pos rfl] at hq
    obtain ⟨x, hx, rfl⟩ := Option.map_eq_some_iff.mp hq
    rfl

/-- No other edit changes the default that counts for a slot. -/
theorem default_edit {q q' : Catalog.Parameter} (hq : p.catalog.parameter? s.param = some q)
    (hx : p.assembly.settingOf? s = some none) (hd : ¬ e.Decides p s) (h : p.edit? e = some p')
    (hq' : p'.catalog.parameter? s.param = some q') : q'.default = q.default := by
  have hsame : p'.catalog.parameter? s.param = some q → q'.default = q.default := by
    intro h
    rw [hq'] at h
    cases h
    rfl
  cases step_of_edit h with
  | declare name span => exact hsame hq
  | extend hc =>
    apply hsame
    rw [Catalog.parameter?, Catalog.parameters_extend hc, ← Catalog.parameter?, hq]
  | addParameter hc =>
    apply hsame
    rw [Catalog.parameter?_addParameter hc, if_neg, hq]
    rintro e
    exact Nat.lt_irrefl _ (e ▸ Catalog.hasParameter_of_some hq)
  | @setDefault r default c hc =>
    have hne : s.param ≠ r := fun e => hd ⟨e.symm, hx⟩
    apply hsame
    rw [Catalog.parameter?_setDefault hc, if_neg hne, hq]
  | addRoot name r span => exact hsame hq
  | addChild ha => exact hsame hq
  | assign ha => exact hsame hq

/-! ## What edits resolve -/

section steps
variable (hp : Built es p) (hr : e.InRange p) (hhost : p.assembly.HasNode s.host)
  (hparam : p.catalog.HasParameter s.param)
include hp

/-- What is there after an edit is closed, and what was there is kept. -/
theorem Built.step (hr : e.InRange p) (h : p.edit? e = some p') : p'.Closed ∧ Kept p p' :=
  ⟨(hp.edit hr h).closed, kept_edit h⟩

include hparam in
/-- An assignment resolves its slot. -/
theorem resolve_assign {x : Assignment} (hr : (Edit.assign s.host x).InRange p)
    (hx : x.target = s.param) (h : p.edit? (.assign s.host x) = some p') :
    ∃ r, (p'.resolve s).run = some r ∧ p.ByAssignment s x r := by
  obtain ⟨hclosed, hk⟩ := hp.step hr h
  obtain ⟨n, hn⟩ := Assembly.hasNode_iff.mp hr.1
  obtain ⟨q, hq⟩ := Catalog.hasParameter_iff.mp hparam
  obtain ⟨n', hn', _⟩ := hk.node hn
  obtain ⟨q', hq', _⟩ := hk.parameter hq
  obtain ⟨r, hrun, hresult⟩ :=
    byAssignment_of_setting hclosed hn' hq' (settingOf_assign hx h)
  have hbefore := byAssignment_at hp.closed hn hq hr.2.2
  refine ⟨r, hrun, ?_⟩
  rw [hresult.eq (hbefore.kept hk hp.ordered.1)]
  exact hbefore

include hhost in
/-- A new default resolves a slot where nothing is assigned. -/
theorem resolve_setDefault {default : List Value}
    (hr : (Edit.setDefault s.param default).InRange p)
    (hx : p.assembly.settingOf? s = some none)
    (h : p.edit? (.setDefault s.param default) = some p') :
    ∃ r, (p'.resolve s).run = some r ∧ p.ByDefault s default r := by
  obtain ⟨hclosed, hk⟩ := hp.step hr h
  obtain ⟨n, hn⟩ := Assembly.hasNode_iff.mp hhost
  obtain ⟨q, hq⟩ := Catalog.hasParameter_iff.mp hr.1
  obtain ⟨n', hn', _⟩ := hk.node hn
  obtain ⟨q', hq', _⟩ := hk.parameter hq
  have hunset : p'.assembly.settingOf? s = some none := by
    cases step_of_edit h with
    | setDefault hc => exact hx
  obtain ⟨r, hrun, hresult⟩ := byDefault_of_unset hclosed hn' hq' hunset
  rw [default_setDefault h hq'] at hresult
  have hbefore := byDefault_at hp.closed hn hq hr.2
  refine ⟨r, hrun, ?_⟩
  rw [hresult.eq (hbefore.kept hk hp.ordered.1 hhost)]
  exact hbefore

include hr hhost hparam

/-- Every other edit leaves what the slot is resolved to as it is. -/
theorem resolve_edit (hd : ¬ e.Decides p s) (h : p.edit? e = some p') :
    (p'.resolve s).run = (p.resolve s).run := by
  obtain ⟨hclosed, hk⟩ := hp.step hr h
  obtain ⟨n, hn⟩ := Assembly.hasNode_iff.mp hhost
  obtain ⟨q, hq⟩ := Catalog.hasParameter_iff.mp hparam
  exact hk.resolve hp.ordered.1 hp.closed hclosed hn hq (settingOf_edit hhost hd h)
    fun hx q' hq' => default_edit hq hx hd h hq'

end steps

/-- None of some edits decides a slot when its turn comes. -/
def Leaves (s : Slot) (p : Program) : List Edit → Prop
  | [] => True
  | e :: es => ¬ e.Decides p s ∧ ∀ p', p.edit? e = some p' → Leaves s p' es

/-- However many edits there are, a slot that none of them decides is resolved as before. -/
theorem resolve_edits (hp : Built es p) {fs : List Edit} (hr : p.AllInRange fs)
    (hl : Leaves s p fs) (hhost : p.assembly.HasNode s.host)
    (hparam : p.catalog.HasParameter s.param) :
    ∃ p', p.edits? fs = some p' ∧ (p'.resolve s).run = (p.resolve s).run := by
  -- on the edits that are still to come
  induction fs generalizing es p with
  | nil => exact ⟨p, rfl, rfl⟩
  | cons f fs ih =>
    obtain ⟨p', hp'⟩ := exists_edit hr.1
    have hk := kept_edit hp'
    obtain ⟨p'', hp'', hsame⟩ := ih (hp.edit hr.1 hp') (hr.2 p' hp') (hl.2 p' hp')
      (hk.hasNode hhost) (hk.hasParameter hparam)
    exact ⟨p'', (edits?_cons hp' fs).trans hp'',
      hsame.trans (resolve_edit hp hr.1 hhost hparam hl.1 hp')⟩

/-! ## The source alone -/

/-- An edit that decides a slot is in range wherever the elements are kept. -/
theorem Edit.Decides.inRange {q : Program} (hd : e.Decides p s) (hr : e.InRange p)
    (hk : Kept p q) : e.InRange q := by
  cases e with
  | assign i x =>
    exact ⟨hk.hasNode hr.1, hk.hasParameter hr.2.1, fun v hv => hk.knows (hr.2.2 v hv)⟩
  | setDefault r default => exact ⟨hk.hasParameter hr.1, fun v hv => hk.knows (hr.2 v hv)⟩
  | declare name span => exact hd.elim
  | extend r super => exact hd.elim
  | addParameter r name typeText default span => exact hd.elim
  | addRoot name r span => exact hd.elim
  | addChild parent name r assignments span => exact hd.elim

/-- An edit that decides a slot gives the same result in every program that has the same names and
    the same parents, whatever is assigned there and whatever the defaults are. -/
theorem resolve_alike {q q' : Program} {fs : List Edit} (hp : Built es p) (hq : Built fs q)
    (hk : Kept p q) (hr : e.InRange p) (hhost : p.assembly.HasNode s.host)
    (hparam : p.catalog.HasParameter s.param) (hd : e.Decides p s) (hd' : e.Decides q s)
    (h : p.edit? e = some p') (h' : q.edit? e = some q') :
    (q'.resolve s).run = (p'.resolve s).run := by
  have hr' := hd.inRange hr hk
  have hparam' := hk.hasParameter hparam
  have hhost' := hk.hasNode hhost
  cases e with
  | assign i x =>
    obtain ⟨rfl, hx⟩ := hd
    obtain ⟨r, hrun, hresult⟩ := resolve_assign hp hparam hr hx h
    obtain ⟨r', hrun', hresult'⟩ := resolve_assign hq hparam' hr' hx h'
    rw [hrun, hrun', hresult'.eq (hresult.kept hk hp.ordered.1)]
  | setDefault i default =>
    obtain ⟨rfl, hx⟩ := hd
    obtain ⟨r, hrun, hresult⟩ := resolve_setDefault hp hhost hr hx h
    obtain ⟨r', hrun', hresult'⟩ := resolve_setDefault hq hhost' hr' hd'.2 h'
    rw [hrun, hrun', hresult'.eq (hresult.kept hk hp.ordered.1 hhost)]
  | declare name span => exact hd.elim
  | extend r super => exact hd.elim
  | addParameter r name typeText default span => exact hd.elim
  | addRoot name r span => exact hd.elim
  | addChild parent name r assignments span => exact hd.elim

/-- An edit in range resolves no slot anew but those whose source it changes: the slot that it
    assigns, and those without assignments of which it sets the default.  Such a slot gets what the
    new source says, and nothing that was assigned or a default before has a part in it. -/
theorem resolution_frame (hp : Built es p) (hr : e.InRange p)
    (hhost : p.assembly.HasNode s.host) (hparam : p.catalog.HasParameter s.param) :
    ∃ p' r r', p.edit? e = some p' ∧ (p.resolve s).run = some r ∧ (p'.resolve s).run = some r' ∧
      (¬ e.Decides p s → r' = r) ∧
      (∀ x, e = .assign s.host x → x.target = s.param → p.ByAssignment s x r') ∧
      (∀ default, e = .setDefault s.param default → p.assembly.settingOf? s = some none →
        p.ByDefault s default r') ∧
      (e.Decides p s → ∀ fs q q', Built fs q → Kept p q → e.Decides q s →
        q.edit? e = some q' → (q'.resolve s).run = some r') := by
  obtain ⟨p', h⟩ := exists_edit hr
  obtain ⟨hclosed, hk⟩ := hp.step hr h
  obtain ⟨n, hn⟩ := Assembly.hasNode_iff.mp hhost
  obtain ⟨q, hq⟩ := Catalog.hasParameter_iff.mp hparam
  obtain ⟨n', hn', _⟩ := hk.node hn
  obtain ⟨q', hq', _⟩ := hk.parameter hq
  have hrun := resolve_at hp.closed hn hq
  have hrun' := resolve_at hclosed hn' hq'
  refine ⟨p', _, _, h, hrun, hrun', ?_, ?_, ?_, ?_⟩
  · intro hd
    have hsame := resolve_edit hp hr hhost hparam hd h
    rw [hrun, hrun'] at hsame
    exact Option.some.inj hsame
  · rintro x rfl hx
    obtain ⟨r, hr, hresult⟩ := resolve_assign hp hparam hr hx h
    rw [hrun'] at hr
    exact Option.some.inj hr ▸ hresult
  · rintro default rfl hx
    obtain ⟨r, hr, hresult⟩ := resolve_setDefault hp hhost hr hx h
    rw [hrun'] at hr
    exact Option.some.inj hr ▸ hresult
  · intro hd fs o o' ho hko hdo ho'
    rw [resolve_alike hp ho hko hr hhost hparam hd hdo h ho']
    exact hrun'

/-- The instance `a` of the mixed history has two assignments of `x`; a third one resolves it. -/
theorem resolution_frame_mixed :
    Built mixedHistory mixedProgram ∧
      (Edit.assign ⟨1⟩ ⟨⟨0⟩, [.param ⟨1⟩, .constant (.int 4)], .nowhere⟩).InRange mixedProgram ∧
      ∃ p' r', mixedProgram.edit? (.assign ⟨1⟩ ⟨⟨0⟩, [.param ⟨1⟩, .constant (.int 4)], .nowhere⟩) =
          some p' ∧
        (p'.resolve ⟨⟨0⟩, ⟨1⟩⟩).run = some r' ∧
        mixedProgram.ByAssignment ⟨⟨0⟩, ⟨1⟩⟩
          ⟨⟨0⟩, [.param ⟨1⟩, .constant (.int 4)], .nowhere⟩ r' := by
  have hr : (Edit.assign ⟨1⟩ ⟨⟨0⟩, [.param ⟨1⟩, .constant (.int 4)], .nowhere⟩).InRange
      mixedProgram := by decide
  have hhost : 1 < mixedProgram.assembly.nodes.size := by decide
  have hparam : 0 < mixedProgram.catalog.parameters.size := by decide
  obtain ⟨p', _, r', h, _, hrun, _, hassign, _⟩ :=
    resolution_frame (s := ⟨⟨0⟩, ⟨1⟩⟩) built_mixed hr hhost hparam
  exact ⟨built_mixed, hr, p', r', h, hrun, hassign _ rfl rfl⟩

end Program

end Reactors
