import Mathlib.Data.List.Nodup
import Reactors.Proofs.Catalog.Edits

/-! # Closed catalogs

    Every element of a catalog has its place as its identity, whatever edits made the catalog.  The
    catalog is closed if, besides, every identity that is stored in it has its element.  The empty
    catalog is closed, and an edit that stores identities of elements keeps a catalog closed.

    The names of the reactors are kept apart: a catalog may be closed and have a name twice.
-/

namespace Reactors.Catalog

variable {c c' : Catalog}

/-! ## Places -/

/-- The identity of an element is its place. -/
structure Placed (c : Catalog) : Prop where
  reactor_id : ∀ {r d}, c.reactor? r = some d → d.id = r
  parameter_id : ∀ {q x}, c.parameter? q = some x → x.id = q

theorem placed_empty : ({} : Catalog).Placed where
  reactor_id h := by simp [reactor?] at h
  parameter_id h := by simp [parameter?] at h

/-- Every reactor is found by its identity. -/
theorem Placed.reactor?_of_mem (hc : c.Placed) {d : Reactor} (hd : d ∈ c.reactors.toList) :
    c.reactor? d.id = some d := by
  obtain ⟨i, hi, rfl⟩ := Array.mem_iff_getElem.mp (Array.mem_toList_iff.mp hd)
  have hat : c.reactor? ⟨i⟩ = some c.reactors[i] := Array.getElem?_eq_getElem hi
  rw [hc.reactor_id hat, hat]

theorem Placed.declare (hc : c.Placed) (name : String) (span : Span) :
    (c.declare name span).Placed where
  reactor_id := by
    intro r d h
    rw [reactor?_declare] at h
    split at h
    · next hr => cases h; exact hr.symm
    · exact hc.reactor_id h
  parameter_id := hc.parameter_id

theorem Placed.extend (hc : c.Placed) {r s : ReactorId} (h : c.extend? r s = some c') :
    c'.Placed where
  reactor_id := by
    intro x d' hx
    rw [reactor?_extend h] at hx
    split at hx
    · obtain ⟨d, hd, rfl⟩ := Option.map_eq_some_iff.mp hx
      have hid := hc.reactor_id hd
      exact hid
    · exact hc.reactor_id hx
  parameter_id := by
    intro q x hq
    rw [parameter?, parameters_extend h] at hq
    exact hc.parameter_id hq

theorem Placed.addParameter (hc : c.Placed) {r : ReactorId} {name : String}
    {typeText : Option String} {default : List Value} {span : Span}
    (h : c.addParameter? r name typeText default span = some c') : c'.Placed where
  reactor_id := by
    intro x d' hx
    rw [reactor?_addParameter h] at hx
    split at hx
    · obtain ⟨d, hd, rfl⟩ := Option.map_eq_some_iff.mp hx
      have hid := hc.reactor_id hd
      exact hid
    · exact hc.reactor_id hx
  parameter_id := by
    intro q x hq
    rw [parameter?_addParameter h] at hq
    split at hq
    · next e => cases hq; exact e.symm
    · exact hc.parameter_id hq

theorem Placed.setDefault (hc : c.Placed) {q : ParamId} {default : List Value}
    (h : c.setDefault? q default = some c') : c'.Placed where
  reactor_id := by
    intro r d hr
    exact hc.reactor_id (reactor?_setDefault h r ▸ hr)
  parameter_id := by
    intro y x' hy
    rw [parameter?_setDefault h] at hy
    split at hy
    · obtain ⟨x, hx, rfl⟩ := Option.map_eq_some_iff.mp hy
      have hid := hc.parameter_id hx
      exact hid
    · exact hc.parameter_id hy

/-! ## Stored identities -/

/-- What a value refers to is there. -/
def Knows (c : Catalog) (v : Value) : Prop := ∀ q, v.reference? = some q → c.HasParameter q

/-- All stored identities have their elements. -/
structure Closed (c : Catalog) : Prop extends Placed c where
  /-- The reactors that a reactor extends are there. -/
  super : ∀ {r d}, c.reactor? r = some d → ∀ s ∈ d.supers, c.HasReactor s
  /-- The parameters that a reactor declares are there. -/
  param : ∀ {r d}, c.reactor? r = some d → ∀ q ∈ d.params, c.HasParameter q
  /-- The reactor that declares a parameter is there. -/
  owner : ∀ {q x}, c.parameter? q = some x → c.HasReactor x.owner
  /-- The parameters that a default refers to are there. -/
  default : ∀ {q x}, c.parameter? q = some x → ∀ v ∈ x.default, c.Knows v

theorem Closed.hasReactor_super (hc : c.Closed) {r s : ReactorId} (h : s ∈ c.supers r) :
    c.HasReactor s := by
  unfold supers at h
  split at h
  · next d hd => exact hc.super hd s h
  · simp at h

theorem Closed.hasParameter_own (hc : c.Closed) {r : ReactorId} {q : ParamId} (h : q ∈ c.own r) :
    c.HasParameter q := by
  unfold own at h
  split at h
  · next d hd => exact hc.param hd q h
  · simp at h

/-! ## Growing catalogs

    No edit takes an element away, so what was known stays known. -/

theorem HasReactor.mono (h : c.reactors.size ≤ c'.reactors.size) {r : ReactorId}
    (hr : c.HasReactor r) : c'.HasReactor r :=
  Nat.lt_of_lt_of_le hr h

theorem HasParameter.mono (h : c.parameters.size ≤ c'.parameters.size) {q : ParamId}
    (hq : c.HasParameter q) : c'.HasParameter q :=
  Nat.lt_of_lt_of_le hq h

theorem Knows.mono (h : c.parameters.size ≤ c'.parameters.size) {v : Value} (hv : c.Knows v) :
    c'.Knows v :=
  fun q hq => (hv q hq).mono h

theorem knows_constant (k : Constant) : c.Knows (.constant k) := by
  intro q h
  simp [Value.reference?] at h

theorem knows_param {q : ParamId} (h : c.HasParameter q) : c.Knows (.param q) := by
  intro x hx
  cases hx
  exact h

/-! ## Edits keep catalogs closed -/

theorem closed_empty : ({} : Catalog).Closed where
  toPlaced := placed_empty
  super h := by simp [reactor?] at h
  param h := by simp [reactor?] at h
  owner h := by simp [parameter?] at h
  default h := by simp [parameter?] at h

theorem Closed.declare (hc : c.Closed) (name : String) (span : Span) :
    (c.declare name span).Closed := by
  have hgrow : c.reactors.size ≤ (c.declare name span).reactors.size := by simp
  -- the new reactor stores nothing but its own identity
  have hcases : ∀ {r d}, (c.declare name span).reactor? r = some d →
      (d.supers = [] ∧ d.params = []) ∨ c.reactor? r = some d := by
    intro r d h
    rw [reactor?_declare] at h
    split at h
    · cases h; exact .inl ⟨rfl, rfl⟩
    · exact .inr h
  refine ⟨hc.toPlaced.declare name span, ?_, ?_, ?_, ?_⟩
  · intro r d h s hs
    rcases hcases h with ⟨hnil, _⟩ | h
    · simp [hnil] at hs
    · exact (hc.super h s hs).mono hgrow
  · intro r d h q hq
    rcases hcases h with ⟨_, hnil⟩ | h
    · simp [hnil] at hq
    · exact hc.param h q hq
  · intro q x h
    exact (hc.owner h).mono hgrow
  · exact hc.default

theorem Closed.extend (hc : c.Closed) {r s : ReactorId} (hs : c.HasReactor s)
    (h : c.extend? r s = some c') : c'.Closed := by
  have hsize : c.reactors.size ≤ c'.reactors.size := Nat.le_of_eq (size_extend h).symm
  have hparams : c'.parameter? = c.parameter? := by
    funext q
    simp [parameter?, parameters_extend h]
  have hhas : ∀ q, c.HasParameter q → c'.HasParameter q := fun q hq =>
    hq.mono (Nat.le_of_eq (congrArg Array.size (parameters_extend h).symm))
  -- the changed reactor keeps its parameters
  have hcases : ∀ {x d'}, c'.reactor? x = some d' → ∃ d, c.reactor? x = some d ∧
      d'.params = d.params ∧ ∀ y ∈ d'.supers, y ∈ d.supers ∨ y = s := by
    intro x d' hx
    rw [reactor?_extend h] at hx
    split at hx
    · obtain ⟨d, hd, rfl⟩ := Option.map_eq_some_iff.mp hx
      exact ⟨d, hd, rfl, fun y hy => by simpa using hy⟩
    · exact ⟨d', hx, rfl, fun y hy => .inl hy⟩
  refine ⟨hc.toPlaced.extend h, ?_, ?_, ?_, ?_⟩
  · intro x d' hx y hy
    obtain ⟨d, hd, _, hsub⟩ := hcases hx
    rcases hsub y hy with hy | rfl
    · exact (hc.super hd y hy).mono hsize
    · exact hs.mono hsize
  · intro x d' hx q hq
    obtain ⟨d, hd, hp, _⟩ := hcases hx
    exact hhas q (hc.param hd q (hp ▸ hq))
  · intro q x hq
    exact (hc.owner (hparams ▸ hq)).mono hsize
  · intro q x hq v hv i hi
    exact hhas i (hc.default (hparams ▸ hq) v hv i hi)

theorem Closed.addParameter (hc : c.Closed) {r : ReactorId} {name : String}
    {typeText : Option String} {default : List Value} {span : Span}
    (h : c.addParameter? r name typeText default span = some c')
    (hdefault : ∀ v ∈ default, c'.Knows v) : c'.Closed := by
  have hsize : c.reactors.size ≤ c'.reactors.size := Nat.le_of_eq (size_addParameter h).symm
  have hpsize : c.parameters.size ≤ c'.parameters.size := by
    rw [parameters_size_addParameter h]; omega
  have hnew : c'.HasParameter c.nextParameter := by
    show c.parameters.size < c'.parameters.size
    rw [parameters_size_addParameter h]; omega
  -- the changed reactor extends what it did, and declares the new parameter besides
  have hcases : ∀ {x d'}, c'.reactor? x = some d' → ∃ d, c.reactor? x = some d ∧
      d'.supers = d.supers ∧ ∀ q ∈ d'.params, q ∈ d.params ∨ q = c.nextParameter := by
    intro x d' hx
    rw [reactor?_addParameter h] at hx
    split at hx
    · obtain ⟨d, hd, rfl⟩ := Option.map_eq_some_iff.mp hx
      exact ⟨d, hd, rfl, fun y hy => by simpa using hy⟩
    · exact ⟨d', hx, rfl, fun y hy => .inl hy⟩
  refine ⟨hc.toPlaced.addParameter h, ?_, ?_, ?_, ?_⟩
  · intro x d' hx y hy
    obtain ⟨d, hd, hs, _⟩ := hcases hx
    exact (hc.super hd y (hs ▸ hy)).mono hsize
  · intro x d' hx q hq
    obtain ⟨d, hd, _, hsub⟩ := hcases hx
    rcases hsub q hq with hq | rfl
    · exact (hc.param hd q hq).mono hpsize
    · exact hnew
  · intro q x hq
    rw [parameter?_addParameter h] at hq
    split at hq
    · cases hq; exact (hasReactor_of_addParameter h).mono hsize
    · exact (hc.owner hq).mono hsize
  · intro q x hq v hv
    rw [parameter?_addParameter h] at hq
    split at hq
    · cases hq; exact hdefault v hv
    · exact (hc.default hq v hv).mono hpsize

theorem Closed.setDefault (hc : c.Closed) {q : ParamId} {default : List Value}
    (hdefault : ∀ v ∈ default, c.Knows v) (h : c.setDefault? q default = some c') :
    c'.Closed := by
  have hreactors : c'.reactor? = c.reactor? := funext (reactor?_setDefault h)
  have hsize : c.reactors.size ≤ c'.reactors.size :=
    Nat.le_of_eq (congrArg Array.size (reactors_setDefault h).symm)
  have hpsize : c.parameters.size ≤ c'.parameters.size :=
    Nat.le_of_eq (parameters_size_setDefault h).symm
  -- the changed parameter keeps its owner
  have hcases : ∀ {y x'}, c'.parameter? y = some x' → ∃ x, c.parameter? y = some x ∧
      x'.owner = x.owner ∧ ∀ v ∈ x'.default, v ∈ x.default ∨ v ∈ default := by
    intro y x' hy
    rw [parameter?_setDefault h] at hy
    split at hy
    · obtain ⟨x, hx, rfl⟩ := Option.map_eq_some_iff.mp hy
      exact ⟨x, hx, rfl, fun v hv => .inr hv⟩
    · exact ⟨x', hy, rfl, fun v hv => .inl hv⟩
  refine ⟨hc.toPlaced.setDefault h, ?_, ?_, ?_, ?_⟩
  · intro r d hr s hs
    exact (hc.super (hreactors ▸ hr) s hs).mono hsize
  · intro r d hr y hy
    exact (hc.param (hreactors ▸ hr) y hy).mono hpsize
  · intro y x' hy
    obtain ⟨x, hx, howner, _⟩ := hcases hy
    exact howner ▸ (hc.owner hx).mono hsize
  · intro y x' hy v hv
    obtain ⟨x, hx, _, hsub⟩ := hcases hy
    rcases hsub v hv with hv | hv
    · exact (hc.default hx v hv).mono hpsize
    · exact (hdefault v hv).mono hpsize

/-! ## Names of reactors -/

/-- The names of the reactors in order. -/
def names (c : Catalog) : List String := c.reactors.toList.map (·.name)

theorem getElem?_names (i : Nat) : c.names[i]? = (c.reactor? ⟨i⟩).map (·.name) := by
  simp [names, reactor?]

@[simp] theorem names_declare (name : String) (span : Span) :
    (c.declare name span).names = c.names ++ [name] := by
  simp [names, Catalog.declare]

/-- Catalogs with the same names have the same number of reactors. -/
theorem size_of_names (h : c'.names = c.names) : c'.reactors.size = c.reactors.size := by
  have hlength := congrArg List.length h
  simpa [names] using hlength

/-- Catalogs whose reactors have the same names one by one have the same list of names. -/
theorem names_congr (h : ∀ r, (c'.reactor? r).map (·.name) = (c.reactor? r).map (·.name)) :
    c'.names = c.names := by
  apply List.ext_getElem?
  intro i
  rw [getElem?_names, getElem?_names, h]

theorem names_extend {r s : ReactorId} (h : c.extend? r s = some c') : c'.names = c.names := by
  apply names_congr
  intro x
  rw [reactor?_extend h]
  split
  · simp [Option.map_map, Function.comp_def]
  · rfl

theorem names_addParameter {r : ReactorId} {name : String} {typeText : Option String}
    {default : List Value} {span : Span}
    (h : c.addParameter? r name typeText default span = some c') : c'.names = c.names := by
  apply names_congr
  intro x
  rw [reactor?_addParameter h]
  split
  · simp [Option.map_map, Function.comp_def]
  · rfl

theorem names_setDefault {q : ParamId} {default : List Value}
    (h : c.setDefault? q default = some c') : c'.names = c.names :=
  names_congr fun x => by rw [reactor?_setDefault h]

/-- A reactor that is found by name has this name, and is there. -/
theorem named?_eq_some {a : String} {d : Reactor} (h : c.named? a = some d) :
    d.name = a ∧ ∃ r, c.reactor? r = some d := by
  unfold named? at h
  have hname := List.find?_some h
  have hmem := List.mem_of_find?_eq_some h
  rw [List.mem_reverse, Array.mem_toList_iff] at hmem
  obtain ⟨i, hi, rfl⟩ := Array.mem_iff_getElem.mp hmem
  exact ⟨by simpa using hname, ⟨i⟩, Array.getElem?_eq_getElem hi⟩

theorem named?_isSome_iff {a : String} : (∃ d, c.named? a = some d) ↔ a ∈ c.names := by
  unfold named? names
  rw [← Option.isSome_iff_exists, List.find?_isSome]
  simp

theorem named?_eq_none_iff {a : String} : c.named? a = none ↔ a ∉ c.names := by
  rw [← named?_isSome_iff, ← Option.isSome_iff_exists, Option.not_isSome_iff_eq_none]

/-- In a closed catalog a reactor that is found by name is found by its identity. -/
theorem Closed.reactor?_of_named (hc : c.Closed) {a : String} {d : Reactor}
    (h : c.named? a = some d) : c.reactor? d.id = some d := by
  obtain ⟨_, r, hr⟩ := named?_eq_some h
  rwa [hc.reactor_id hr]

/-- Where no name occurs twice, every reactor is found by its name. -/
theorem named?_of_nodup (hn : c.names.Nodup) {r : ReactorId} {d : Reactor}
    (h : c.reactor? r = some d) : c.named? d.name = some d := by
  have hr := getElem?_names (c := c) r.index
  rw [show (⟨r.index⟩ : ReactorId) = r from rfl, h] at hr
  have hmem : d.name ∈ c.names := List.mem_of_getElem? hr
  obtain ⟨e, he⟩ := named?_isSome_iff.mpr hmem
  obtain ⟨hname, s, hs⟩ := named?_eq_some he
  have hs' := getElem?_names (c := c) s.index
  rw [show (⟨s.index⟩ : ReactorId) = s from rfl, hs, Option.map_some, hname] at hs'
  rw [Option.map_some] at hr
  -- both have the name, so both are at its only place
  obtain ⟨hi, hri⟩ := List.getElem?_eq_some_iff.mp hr
  obtain ⟨hj, hsj⟩ := List.getElem?_eq_some_iff.mp hs'
  have heq : r.index = s.index := (List.Nodup.getElem_inj_iff hn).mp (hri.trans hsj.symm)
  have hrs : r = s := by cases r; cases s; simp_all
  rw [hrs, hs] at h
  rw [he, h]

end Reactors.Catalog
