import Mathlib.Logic.Relation
import Reactors.Model.Basic
import Reactors.Time

/-! # Well-formed models

    What a model must satisfy to describe a program, said of the model as it is written.  Nothing
    here binds a name to an identity or looks at the order in which a model is read: it is said by
    names alone which names there are, and which of them may be used where.
-/

namespace Reactors.Model

/-! ## Names -/

/-- The names that may be used. -/
structure Names where
  /-- The names of the reactors. -/
  reactor : String → Prop
  /-- The names of the parameters of a reactor, inherited ones included. -/
  parameter : (reactor name : String) → Prop

/-- A reactor of this name names `super` among those it extends. -/
def Extends (rs : List Reactor) (name super : String) : Prop :=
  ∃ r ∈ rs, r.name = name ∧ super ∈ r.supers

/-- The names that reactors give: their own, and for each of them the names of the parameters
    declared by it or by what it extends, directly or by way of others. -/
def namesOf (rs : List Reactor) : Names where
  reactor := fun name => ∃ r ∈ rs, r.name = name
  parameter := fun reactor name => ∃ r ∈ rs,
    Relation.ReflTransGen (Extends rs) reactor r.name ∧ ∃ q ∈ r.parameters, q.name = name

/-! ## Terms -/

variable (ν : Names)

/-- A time value has a known unit, or is zero and has none. -/
def Duration.Sound (d : Duration) : Prop :=
  match d.unit with
  | some text => ∃ unit : Time.Unit, text ∈ unit.spellings
  | none => d.value = 0

/-- A reference names a parameter: by its name alone where there is a reactor in whose scope it
    stands, or on a reactor that is named. -/
def Reference.Bound (scope : Option String) : Reference → Prop
  | .plain name => ∃ r, scope = some r ∧ ν.parameter r name
  | .qualified name reactor => ν.reactor reactor ∧ ν.parameter reactor name

/-- What a term names is there. -/
def Term.Bound (scope : Option String) : Term → Prop
  | .time d => d.Sound
  | .param r => r.Bound ν scope
  | _ => True

/-! ## Instances -/

/-- An assignment of an instance of `reactor` sets one of its parameters, and its terms are bound in
    the scope of the reactor around the instance. -/
structure Assignment.Bound (reactor : String) (scope : Option String) (a : Assignment) :
    Prop where
  target : ν.parameter reactor a.target
  terms : ∀ t ∈ a.terms, t.Bound ν scope

/-- An instance inside an instance of the reactor `outer`, or inside none, and everything inside
    it. -/
inductive Instance.Bound : (outer : Option String) → Instance → Prop where
  | intro {outer : Option String} {i : Instance}
      (reactor : ν.reactor i.reactor)
      (assignments : ∀ a ∈ i.assignments, a.Bound ν i.reactor outer)
      (distinct : (i.children.map (·.name)).Nodup)
      (children : ∀ j ∈ i.children, Instance.Bound (some i.reactor) j) :
      Instance.Bound outer i

end Reactors.Model

/-! ## Models -/

namespace Reactors

open Model (Extends namesOf)

/-- A model that describes a program. -/
structure Model.WellFormed (m : Model) : Prop where
  /-- The separator without the blanks around it is a comma. -/
  separator : Text.trim m.options.separator.toList = [',']
  /-- No two reactors have one name. -/
  distinct : (m.reactors.map (·.name)).Nodup
  /-- What a reactor extends is declared. -/
  supers : ∀ r ∈ m.reactors, ∀ super ∈ r.supers, (namesOf m.reactors).reactor super
  /-- No reactor extends itself, directly or by way of others. -/
  acyclic : ∀ name, ¬ Relation.TransGen (Extends m.reactors) name name
  /-- The terms of a default are bound in the scope of the reactor that declares it. -/
  defaults : ∀ r ∈ m.reactors, ∀ q ∈ r.parameters, ∀ t ∈ q.default,
    t.Bound (namesOf m.reactors) (some r.name)
  /-- The instances are bound; the one that contains all others has none around it. -/
  main : m.main.Bound (namesOf m.reactors) none

end Reactors
