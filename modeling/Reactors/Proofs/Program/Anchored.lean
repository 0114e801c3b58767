import Reactors.Proofs.Listing
import Reactors.Proofs.Model.History
import Reactors.Proofs.Program.Ledger

/-! # Loaded programs are anchored

    Whatever a text is, binding it follows no identity to where nothing is, and what it comes to
    stores no such identity, be it accepted or refused.  So everything that can be asked of the
    program has an answer, although what a refused model comes to may have circles among its reactors
    and lacks what was left out.
-/

namespace Reactors.Program

variable {p : Program}

/-- Every identity that a program stores leads to what it stands for. -/
structure Anchored (p : Program) : Prop extends InRange p where
  /-- A name leads to a reactor that is there, as does the identity of that reactor. -/
  named : ∀ {name d}, p.catalog.named? name = some d → p.catalog.reactor? d.id = some d
  /-- Elements stand at the places of their identities. -/
  placed : p.catalog.Placed
  node : ∀ {i n}, p.assembly.node? i = some n → n.id = i
  parent : ∀ {i n}, p.assembly.node? i = some n → ∀ j, n.parent = some j → p.assembly.HasNode j
  child : ∀ {i n}, p.assembly.node? i = some n → ∀ j ∈ n.children, p.assembly.HasNode j
  /-- An assignment sets a parameter that is visible on the reactor of its instance. -/
  visible : ∀ {i n}, p.assembly.node? i = some n → ∀ x ∈ n.assignments,
    ∃ qs, p.catalog.visibleIds? n.reactor = some qs ∧ x.target ∈ qs

/-- No question about a program follows an identity to where nothing is. -/
structure Answers (p : Program) : Prop where
  validation : ∃ vs, p.validate? = some vs
  module : ∀ header, ∃ module ds, (p.emit header).run = some (module, ds)
  /-- The values of any instance and of everything inside it. -/
  values : ∀ i, p.assembly.HasNode i → ∃ maps ds, (p.overridesBelow i).run = some (maps, ds)
  json : ∃ json ds, p.overridesJson.run = some (json, ds)
  tree : ∃ text, p.tree? = some text

/-- An assignment that fits sets a parameter that is visible. -/
theorem exists_visible_of_fits {c : Catalog} (hc : c.Closed) {r : ReactorId} {x : Assignment}
    (h : Model.Fits c r x) : ∃ qs, c.visibleIds? r = some qs ∧ x.target ∈ qs := by
  obtain ⟨q, hq, hfind⟩ := h.target
  obtain ⟨ps, hps, hlast⟩ := Option.bind_eq_some_iff.mp hfind
  obtain ⟨hmem, _⟩ := Catalog.lastNamed?_eq_some (Option.some.inj hlast)
  refine ⟨ps.map (·.id), hc.visibleIds?_of_visible hps, ?_⟩
  rw [← hc.parameter_id hq]
  exact List.mem_map_of_mem hmem

theorem anchored_of_loaded (h : Model.Loaded p) : p.Anchored where
  super := h.catalog.super
  param := h.catalog.param
  owner := h.catalog.owner
  default := h.catalog.default
  reactor := h.assembly.reactor
  target := (closed_of_loaded h).target
  values := (closed_of_loaded h).values
  named := h.catalog.reactor?_of_named
  placed := h.catalog.toPlaced
  node := h.assembly.id
  parent := by
    intro i n hn j hj
    obtain ⟨m, hm, _⟩ := h.assembly.parent hn hj
    exact Assembly.hasNode_of_some hm
  child := by
    intro i n hn j hj
    obtain ⟨m, hm, _⟩ := h.assembly.child hn hj
    exact Assembly.hasNode_of_some hm
  visible := fun hn x hx => exists_visible_of_fits h.catalog (h.assembly.assignments hn x hx)

theorem answers_of_loaded (h : Model.Loaded p) : p.Answers := by
  have hp := closed_of_loaded h
  obtain ⟨vs, hvs, _⟩ := validate_covers_reports hp
  obtain ⟨json, hjson⟩ := overridesJson_run hp
  refine ⟨⟨vs, hvs⟩, fun header => ⟨_, _, emit_run hp header⟩, ?_, ⟨json, _, hjson⟩,
    exists_tree hp⟩
  intro i hi
  obtain ⟨ns, hns, hfound⟩ := h.assembly.layered.exists_preorder_below hi
  exact ⟨_, _, overridesBelow_of_preorder hp hns hfound⟩

/-- What binding a model comes to, be the model accepted or refused. -/
structure Safe (p : Program) : Prop where
  anchored : p.Anchored
  /-- Under all options. -/
  answers : ∀ o, ({ p with options := o } : Program).Answers
  /-- Edits alone made it, each in range when its turn came, and a ledger, which keeps a table of
      names, kept up with them. -/
  history : ∃ es, Built es { p with options := .standard } ∧
    Ledger.edits? {} es = some (.ofProgram p)

theorem safe_of_run {m : Model} {faults : List LoadFault}
    (h : m.bindAll.run = some (p, faults)) : p.Safe := by
  obtain ⟨hloaded, _⟩ := (Model.bindAll_ends m).ensures p faults h
  obtain ⟨es, hbuilt⟩ := Model.bindAll_built m p faults h
  have hledger := Ledger.edits_ofProgram hbuilt
  exact ⟨anchored_of_loaded hloaded, fun o => answers_of_loaded (hloaded.withOptions o),
    es, hbuilt, hledger⟩

/-- Every text is loaded or refused, no look-up on the way there fails, and loaded programs are
    safe.  So is what binding had come to where it refuses the model for its faults. -/
theorem load_anchored (text : String) :
    ∃ r, load text = some r ∧
      (∀ p, r = .ok p → p.Safe) ∧
      (∀ faults, r = .error faults →
        (∃ e, Model.read text = .error e ∧ faults = [.badDocument e]) ∨
        ∃ m p, Model.read text = .ok m ∧ m.bindAll.run = some (p, faults) ∧ p.Safe) := by
  unfold load
  cases hread : Model.read text with
  | error e => exact ⟨_, rfl, by simp, fun faults h => .inl ⟨e, rfl, by cases h; rfl⟩⟩
  | ok m =>
    obtain ⟨p, faults, hrun, _⟩ := Model.bindAll_ends m
    refine ⟨_, Model.elaborate_of_run hrun, ?_, ?_⟩
    · intro p' h
      split at h
      · cases h
        exact safe_of_run hrun
      · cases h
    · intro faults' h
      split at h
      · cases h
      · cases h
        exact .inr ⟨m, p, rfl, hrun, safe_of_run hrun⟩

end Reactors.Program
