import Mathlib.Logic.Basic
import Reactors.Catalog.Lineage

/-! # What the edits of a catalog change

    Every edit adds one element or changes one.  Its lemmas say which element that is and that all
    the others, found by their identities, stay as they are.
-/

namespace Reactors.Catalog

variable {c c' : Catalog}

/-! ## Elements -/

/-- There is a reactor with this identity. -/
def HasReactor (c : Catalog) (r : ReactorId) : Prop := r.index < c.reactors.size

/-- There is a parameter with this identity. -/
def HasParameter (c : Catalog) (q : ParamId) : Prop := q.index < c.parameters.size

theorem hasReactor_iff {r : ReactorId} : c.HasReactor r ↔ ∃ d, c.reactor? r = some d := by
  constructor
  · intro h
    exact ⟨_, Array.getElem?_eq_getElem h⟩
  · intro ⟨_, h⟩
    exact (Array.getElem?_eq_some_iff.mp h).1

theorem hasParameter_iff {q : ParamId} : c.HasParameter q ↔ ∃ x, c.parameter? q = some x := by
  constructor
  · intro h
    exact ⟨_, Array.getElem?_eq_getElem h⟩
  · intro ⟨_, h⟩
    exact (Array.getElem?_eq_some_iff.mp h).1

theorem hasReactor_of_some {r : ReactorId} {d : Reactor} (h : c.reactor? r = some d) :
    c.HasReactor r :=
  hasReactor_iff.mpr ⟨d, h⟩

theorem hasParameter_of_some {q : ParamId} {x : Parameter} (h : c.parameter? q = some x) :
    c.HasParameter q :=
  hasParameter_iff.mpr ⟨x, h⟩

theorem mem_reactors {r : ReactorId} {d : Reactor} (h : c.reactor? r = some d) :
    d ∈ c.reactors.toList :=
  Array.mem_toList_iff.mpr (Array.mem_of_getElem? h)

/-- The parameters that a reactor declares itself; an identity without a reactor declares none. -/
def own (c : Catalog) (r : ReactorId) : List ParamId :=
  match c.reactor? r with
  | some d => d.params
  | none => []

theorem own_of_some {r : ReactorId} {d : Reactor} (h : c.reactor? r = some d) :
    c.own r = d.params := by
  simp [own, h]

/-! ## Declaring a reactor -/

section declare
variable (c) (name : String) (span : Span)

@[simp] theorem size_declare : (c.declare name span).reactors.size = c.reactors.size + 1 := by
  simp [declare]

theorem reactor?_declare (r : ReactorId) :
    (c.declare name span).reactor? r =
      if r = c.nextReactor then
        some { id := c.nextReactor, name, supers := [], params := [], span }
      else c.reactor? r := by
  unfold reactor? declare
  rw [Array.getElem?_push]
  by_cases h : r = c.nextReactor
  · simp [h, nextReactor]
  · have : r.index ≠ c.reactors.size := fun e => h (by cases r; simp_all [nextReactor])
    simp [h, this]

theorem supers_declare (r : ReactorId) :
    (c.declare name span).supers r = if r = c.nextReactor then [] else c.supers r := by
  unfold supers
  rw [reactor?_declare]
  by_cases h : r = c.nextReactor
  · simp [h]
  · simp [h]

theorem own_declare (r : ReactorId) :
    (c.declare name span).own r = if r = c.nextReactor then [] else c.own r := by
  unfold own
  rw [reactor?_declare]
  by_cases h : r = c.nextReactor
  · simp [h]
  · simp [h]

end declare

/-! ## Changing a reactor -/

section modify
variable {r : ReactorId} {f : Reactor → Reactor}

/-- A reactor that is there can be changed. -/
theorem exists_modifyReactor (h : c.HasReactor r) : ∃ c', c.modifyReactor? r f = some c' := by
  unfold HasReactor at h
  simp [modifyReactor?, h]

theorem hasReactor_of_modifyReactor (h : c.modifyReactor? r f = some c') : c.HasReactor r := by
  unfold modifyReactor? at h
  split at h
  · assumption
  · contradiction

theorem size_modifyReactor (h : c.modifyReactor? r f = some c') :
    c'.reactors.size = c.reactors.size := by
  unfold modifyReactor? at h
  split at h
  · cases h; simp
  · contradiction

theorem parameters_modifyReactor (h : c.modifyReactor? r f = some c') :
    c'.parameters = c.parameters := by
  unfold modifyReactor? at h
  split at h
  · cases h; rfl
  · contradiction

theorem reactor?_modifyReactor (h : c.modifyReactor? r f = some c') (x : ReactorId) :
    c'.reactor? x = if x = r then (c.reactor? x).map f else c.reactor? x := by
  unfold modifyReactor? at h
  split at h
  · cases h
    unfold reactor?
    rw [Array.getElem?_modify]
    by_cases hx : x = r
    · simp [hx]
    · have : r.index ≠ x.index := fun e => hx (by cases r; cases x; simp_all)
      simp [hx, this]
  · contradiction

end modify

/-! ## Extending a reactor -/

section extend
variable {r super : ReactorId}

theorem exists_extend (h : c.HasReactor r) : ∃ c', c.extend? r super = some c' :=
  exists_modifyReactor h

theorem size_extend (h : c.extend? r super = some c') : c'.reactors.size = c.reactors.size :=
  size_modifyReactor h

theorem parameters_extend (h : c.extend? r super = some c') : c'.parameters = c.parameters :=
  parameters_modifyReactor h

theorem reactor?_extend (h : c.extend? r super = some c') (x : ReactorId) :
    c'.reactor? x =
      if x = r then (c.reactor? x).map fun d => { d with supers := d.supers ++ [super] }
      else c.reactor? x :=
  reactor?_modifyReactor h x

/-- The reactor extends one more, and the others extend what they did. -/
theorem supers_extend (h : c.extend? r super = some c') (x : ReactorId) :
    c'.supers x = if x = r then c.supers x ++ [super] else c.supers x := by
  unfold supers
  rw [reactor?_extend h]
  by_cases hx : x = r
  · obtain ⟨d, hd⟩ := hasReactor_iff.mp (hasReactor_of_modifyReactor h)
    simp [hx, hd]
  · simp [hx]

theorem own_extend (h : c.extend? r super = some c') (x : ReactorId) : c'.own x = c.own x := by
  unfold own
  rw [reactor?_extend h]
  by_cases hx : x = r
  · cases c.reactor? x <;> simp [hx]
  · simp [hx]

end extend

/-! ## Adding a parameter -/

section addParameter
variable {r : ReactorId} {name : String} {typeText : Option String} {default : List Value}
  {span : Span}

theorem exists_addParameter (h : c.HasReactor r) :
    ∃ c', c.addParameter? r name typeText default span = some c' := by
  obtain ⟨d, hd⟩ := exists_modifyReactor (f := fun d => { d with params := d.params ++
    [c.nextParameter] }) h
  dsimp only [addParameter?]
  rw [hd]
  exact ⟨_, rfl⟩

/-- An added parameter stands behind all others, and its reactor lists it as its last one. -/
theorem addParameter_eq (h : c.addParameter? r name typeText default span = some c') :
    ∃ d, c.modifyReactor? r (fun d => { d with params := d.params ++ [c.nextParameter] }) = some d ∧
      c' = { d with parameters := (c.parameters.push
        { id := c.nextParameter, owner := r, name, typeText, default, span }) } := by
  unfold addParameter? at h
  obtain ⟨d, hd, h⟩ := Option.bind_eq_some_iff.mp h
  refine ⟨d, hd, ?_⟩
  rw [← parameters_modifyReactor hd]
  exact (Option.some.inj h).symm

theorem hasReactor_of_addParameter (h : c.addParameter? r name typeText default span = some c') :
    c.HasReactor r := by
  obtain ⟨d, hd, _⟩ := addParameter_eq h
  exact hasReactor_of_modifyReactor hd

theorem size_addParameter (h : c.addParameter? r name typeText default span = some c') :
    c'.reactors.size = c.reactors.size := by
  obtain ⟨d, hd, rfl⟩ := addParameter_eq h
  show d.reactors.size = c.reactors.size
  exact size_modifyReactor hd

theorem parameters_size_addParameter
    (h : c.addParameter? r name typeText default span = some c') :
    c'.parameters.size = c.parameters.size + 1 := by
  obtain ⟨d, hd, rfl⟩ := addParameter_eq h
  simp

theorem reactor?_addParameter (h : c.addParameter? r name typeText default span = some c')
    (x : ReactorId) :
    c'.reactor? x =
      if x = r then (c.reactor? x).map fun d => { d with params := d.params ++ [c.nextParameter] }
      else c.reactor? x := by
  obtain ⟨d, hd, rfl⟩ := addParameter_eq h
  exact reactor?_modifyReactor hd x

theorem parameter?_addParameter (h : c.addParameter? r name typeText default span = some c')
    (q : ParamId) :
    c'.parameter? q =
      if q = c.nextParameter then
        some { id := c.nextParameter, owner := r, name, typeText, default, span }
      else c.parameter? q := by
  obtain ⟨d, hd, rfl⟩ := addParameter_eq h
  unfold parameter?
  rw [Array.getElem?_push]
  by_cases hq : q = c.nextParameter
  · simp [hq, nextParameter]
  · have : q.index ≠ c.parameters.size := fun e => hq (by cases q; simp_all [nextParameter])
    simp [hq, this]

theorem supers_addParameter (h : c.addParameter? r name typeText default span = some c')
    (x : ReactorId) : c'.supers x = c.supers x := by
  unfold supers
  rw [reactor?_addParameter h]
  by_cases hx : x = r
  · cases c.reactor? x <;> simp [hx]
  · simp [hx]

/-- The reactor declares one more, and the others declare what they did. -/
theorem own_addParameter (h : c.addParameter? r name typeText default span = some c')
    (x : ReactorId) :
    c'.own x = if x = r then c.own x ++ [c.nextParameter] else c.own x := by
  unfold own
  rw [reactor?_addParameter h]
  by_cases hx : x = r
  · obtain ⟨d, hd⟩ := hasReactor_iff.mp (hasReactor_of_addParameter h)
    simp [hx, hd]
  · simp [hx]

end addParameter

/-! ## Replacing a default -/

section setDefault
variable {q : ParamId} {default : List Value}

theorem exists_setDefault (h : c.HasParameter q) : ∃ c', c.setDefault? q default = some c' := by
  unfold HasParameter at h
  simp [setDefault?, h]

theorem reactors_setDefault (h : c.setDefault? q default = some c') :
    c'.reactors = c.reactors := by
  unfold setDefault? at h
  split at h
  · cases h; rfl
  · contradiction

theorem parameters_size_setDefault (h : c.setDefault? q default = some c') :
    c'.parameters.size = c.parameters.size := by
  unfold setDefault? at h
  split at h
  · cases h; simp
  · contradiction

theorem reactor?_setDefault (h : c.setDefault? q default = some c') (r : ReactorId) :
    c'.reactor? r = c.reactor? r := by
  unfold reactor?
  rw [reactors_setDefault h]

theorem supers_setDefault (h : c.setDefault? q default = some c') (r : ReactorId) :
    c'.supers r = c.supers r := by
  unfold supers
  rw [reactor?_setDefault h]

theorem own_setDefault (h : c.setDefault? q default = some c') (r : ReactorId) :
    c'.own r = c.own r := by
  unfold own
  rw [reactor?_setDefault h]

theorem parameter?_setDefault (h : c.setDefault? q default = some c') (x : ParamId) :
    c'.parameter? x =
      if x = q then (c.parameter? x).map fun y => { y with default } else c.parameter? x := by
  unfold setDefault? at h
  split at h
  · cases h
    unfold parameter?
    rw [Array.getElem?_modify]
    by_cases hx : x = q
    · simp [hx]
    · have : q.index ≠ x.index := fun e => hx (by cases q; cases x; simp_all)
      simp [hx, this]
  · contradiction

end setDefault

end Reactors.Catalog
