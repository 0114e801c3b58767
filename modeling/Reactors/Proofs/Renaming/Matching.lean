import Reactors.Proofs.Model.Faithful
import Reactors.Proofs.Renaming.Basic

/-! # Matching the programs of one model

    A reactor of a model has its name, and a parameter has its place among those of its reactor;
    neither depends on the order in which the reactors are declared.  So where two catalogs are
    those of the same reactors in different orders, there is a renaming that takes everything to
    what has the same name or the same place, and it makes the one program of the other.
-/

namespace Reactors

open Model (Catalogued nameOf? idOf?)

/-! ## Codes -/

section codes
variable {ι κ : Type} {code? code'? : ι → Option κ} {decode? : κ → Option ι}

/-- What has a code goes to what the code stands for; everything else stays where it is. -/
def recode (code? : ι → Option κ) (decode? : κ → Option ι) (i : ι) : ι :=
  ((code? i).bind decode?).getD i

/-- Where every code stands for something that has it, codes are kept. -/
theorem code_recode (hsome : ∀ i a, code? i = some a → ∃ j, decode? a = some j ∧ code'? j = some a)
    (hnone : ∀ i, code? i = none → code'? i = none) (i : ι) :
    code'? (recode code? decode? i) = code? i := by
  unfold recode
  cases hi : code? i with
  | none => simpa using hnone i hi
  | some a =>
    obtain ⟨j, hj, hcode⟩ := hsome i a hi
    simpa [hj] using hcode

/-- Where codes are kept and no two elements have one, no two elements go to one place. -/
theorem recode_injective (hkept : ∀ i, code'? (recode code? decode? i) = code? i)
    (hinj : ∀ i j a, code? i = some a → code? j = some a → i = j) :
    Function.Injective (recode code? decode?) := by
  intro i j h
  have hcode : code? i = code? j := by rw [← hkept i, ← hkept j, h]
  cases hi : code? i with
  | none =>
    have hj : code? j = none := hcode.symm.trans hi
    simpa [recode, hi, hj] using h
  | some a => exact hinj i j a hi (hcode.symm.trans hi)

end codes

/-! ## Places of parameters -/

namespace Catalog

/-- Where a parameter is declared: the name of the reactor, and the place among its parameters. -/
def address? (c : Catalog) (q : ParamId) : Option (String × Nat) := do
  let x ← c.parameter? q
  let d ← c.reactor? x.owner
  return (d.name, d.params.idxOf q)

/-- The parameter that is declared at a place. -/
def declaredAt? (c : Catalog) (a : String × Nat) : Option ParamId := do
  let d ← c.named? a.1
  d.params[a.2]?

end Catalog

namespace Model.Catalogued

variable {rs rs' : List Model.Reactor} {c c' : Catalog} {q : ParamId} {a : String × Nat}

theorem address?_eq_some_iff (h : Catalogued rs c) :
    c.address? q = some a ↔ c.declaredAt? a = some q := by
  constructor
  · intro haddress
    obtain ⟨z, hz, haddress⟩ := Option.bind_eq_some_iff.mp haddress
    obtain ⟨d, hd, haddress⟩ := Option.bind_eq_some_iff.mp haddress
    cases Option.some.inj haddress
    have hq : q ∈ d.params := Catalog.own_of_some hd ▸ h.mem_own hz
    simp [Catalog.declaredAt?, Catalog.named?_of_nodup h.distinct hd, List.getElem?_idxOf hq]
  · intro hdeclared
    obtain ⟨d, hd, hq⟩ := Option.bind_eq_some_iff.mp hdeclared
    have hfound := h.closed.reactor?_of_named hd
    have hown := Catalog.own_of_some hfound
    obtain ⟨hlt, hget⟩ := List.getElem?_eq_some_iff.mp hq
    obtain ⟨_, _, _, _, _, z, hz, howner, _⟩ :=
      h.exists_declared (hown ▸ List.mem_of_getElem? hq)
    have hindex : d.params.idxOf q = a.2 := by
      rw [← hget]
      exact (hown ▸ h.nodup_own d.id : d.params.Nodup).idxOf_getElem a.2 hlt
    simp [Catalog.address?, hz, howner, hfound, (Catalog.named?_eq_some hd).1, hindex]

/-- Every parameter has a place. -/
theorem address?_eq_none_iff (h : Catalogued rs c) :
    c.address? q = none ↔ c.parameters.size ≤ q.index := by
  rw [← Nat.not_lt]
  constructor
  · intro hnone hlt
    obtain ⟨z, hz⟩ := Catalog.hasParameter_iff.mp hlt
    obtain ⟨d, hd⟩ := Catalog.hasReactor_iff.mp (h.closed.owner hz)
    simp [Catalog.address?, hz, hd] at hnone
  · intro hnot
    rw [Option.eq_none_iff_forall_not_mem]
    intro b hb
    obtain ⟨z, hz, _⟩ := Option.bind_eq_some_iff.mp hb
    exact hnot (Catalog.hasParameter_of_some hz)

/-- The parameter that is declared at a place is the given one there. -/
theorem exists_at (h : Catalogued rs c) (hq : c.declaredAt? a = some q) :
    ∃ x ∈ rs, x.name = a.1 ∧ ∃ y, x.parameters[a.2]? = some y ∧
      ∃ z, c.parameter? q = some z ∧ c.ReactorNamed a.1 z.owner ∧ y.Denotes c a.1 z := by
  obtain ⟨d, hd, hq⟩ := Option.bind_eq_some_iff.mp hq
  obtain ⟨hname, _⟩ := Catalog.named?_eq_some hd
  have hfound := h.closed.reactor?_of_named hd
  obtain ⟨x, hx, hden⟩ := h.exists_given hfound
  obtain ⟨hlt, hget⟩ := List.getElem?_eq_some_iff.mp hq
  have hlt' : a.2 < x.parameters.length := hden.parameters.length_eq ▸ hlt
  obtain ⟨z, hz, howner, hy⟩ := (List.forall₂_iff_get.mp hden.parameters).2 a.2 hlt' hlt
  rw [List.get_eq_getElem, hget] at hz
  have hxa : x.name = a.1 := hden.name.symm.trans hname
  exact ⟨x, hx, hxa, _, List.getElem?_eq_getElem hlt', z, hz, ⟨d, howner ▸ hfound, hname⟩,
    hxa ▸ hy⟩

/-- At every place of a given parameter one is declared. -/
theorem exists_declaredAt (h : Catalogued rs c) {x : Model.Reactor} (hx : x ∈ rs) {i : Nat}
    (hi : i < x.parameters.length) : ∃ q, c.declaredAt? (x.name, i) = some q := by
  obtain ⟨d, hd, hden⟩ := Lookup.exists_mem_of_forall₂ h.reactors hx
  have hfound := h.closed.reactor?_of_mem hd
  have hnamed := Catalog.named?_of_nodup h.distinct hfound
  rw [hden.name] at hnamed
  have hi' : i < d.params.length := hden.parameters.length_eq ▸ hi
  exact ⟨d.params[i], by simp [Catalog.declaredAt?, hnamed, hi']⟩

/-- There are as many parameters as are given. -/
theorem size_parameters (h : Catalogued rs c) :
    c.parameters.size = (rs.flatMap (·.parameters)).length := by
  have hlengths : rs.map (fun x => x.parameters.length) =
      c.reactors.toList.map fun d => d.params.length :=
    Lookup.map_eq_of_forall₂ h.reactors fun _ _ hden => hden.parameters.length_eq
  have hall := congrArg List.length h.parameters
  rw [List.length_flatMap, ← hlengths, ← List.length_flatMap] at hall
  simpa using hall.symm

/-! ## The same reactors in another order -/

section perm
variable (h : Catalogued rs c) (h' : Catalogued rs' c') (hperm : rs.Perm rs')
include h h' hperm

theorem names_perm : c.names.Perm c'.names := by
  rw [h.represents.names, h'.represents.names]
  exact hperm.map _

omit h' in
/-- Reactors of one name are the same given one. -/
theorem eq_of_name {x x' : Model.Reactor} (hx : x ∈ rs) (hx' : x' ∈ rs')
    (hname : x.name = x'.name) : x = x' :=
  List.inj_on_of_nodup_map (h.represents.names ▸ h.distinct) hx (hperm.mem_iff.mpr hx') hname

theorem nameOf?_recode (r : ReactorId) :
    nameOf? c' (recode (nameOf? c) (idOf? c') r) = nameOf? c r := by
  refine code_recode ?_ ?_ r
  · intro r a hr
    obtain ⟨d, hd, rfl⟩ := Option.map_eq_some_iff.mp hr
    have hmem : d.name ∈ c.names := List.mem_map_of_mem (Catalog.mem_reactors hd)
    obtain ⟨d', hd'⟩ := Catalog.named?_isSome_iff.mpr ((names_perm h h' hperm).mem_iff.mp hmem)
    obtain ⟨hname, _⟩ := Catalog.named?_eq_some hd'
    exact ⟨d'.id, by simp [idOf?, hd'],
      by simp [nameOf?, h'.closed.reactor?_of_named hd', hname]⟩
  · intro r hr
    have hlength := (names_perm h h' hperm).length_eq
    simp only [nameOf?, Option.map_eq_none_iff, Catalog.reactor?, Array.getElem?_eq_none_iff,
      Catalog.names, List.length_map, Array.length_toList] at hr hlength ⊢
    omega

theorem address?_recode (q : ParamId) :
    c'.address? (recode c.address? c'.declaredAt? q) = c.address? q := by
  refine code_recode ?_ ?_ q
  · intro q a hq
    obtain ⟨x, hx, hname, y, hy, _⟩ := h.exists_at (h.address?_eq_some_iff.mp hq)
    obtain ⟨hlt, _⟩ := List.getElem?_eq_some_iff.mp hy
    obtain ⟨q', hq'⟩ := h'.exists_declaredAt (hperm.mem_iff.mp hx) hlt
    rw [hname] at hq'
    exact ⟨q', hq', h'.address?_eq_some_iff.mpr hq'⟩
  · intro q hq
    have hlength := (hperm.flatMap_right fun x => x.parameters).length_eq
    rw [h.address?_eq_none_iff, h.size_parameters] at hq
    rw [h'.address?_eq_none_iff, h'.size_parameters]
    omega

/-- Every reactor goes to the one of its name, every parameter to the one at its place. -/
def matching : Renaming where
  reactor := recode (nameOf? c) (idOf? c')
  param := recode c.address? c'.declaredAt?
  reactor_injective := by
    apply recode_injective (nameOf?_recode h h' hperm)
    intro r s a hr hs
    obtain ⟨d, hd, hname⟩ := Option.map_eq_some_iff.mp hr
    obtain ⟨e, he, hname'⟩ := Option.map_eq_some_iff.mp hs
    exact Catalog.ReactorNamed.eq h.closed h.distinct ⟨d, hd, hname⟩ ⟨e, he, hname'⟩
  param_injective := by
    apply recode_injective (address?_recode h h' hperm)
    intro q q' a hq hq'
    rw [h.address?_eq_some_iff] at hq hq'
    exact Option.some.inj (hq.symm.trans hq')

theorem reactorNamed_matching {name : String} {r : ReactorId} (hr : c.ReactorNamed name r) :
    c'.ReactorNamed name ((matching h h' hperm).reactor r) := by
  obtain ⟨d, hd, rfl⟩ := hr
  have hkept := nameOf?_recode h h' hperm r
  rw [show nameOf? c r = some d.name by simp [nameOf?, hd]] at hkept
  exact Option.map_eq_some_iff.mp hkept

theorem declaredAt?_matching (hq : c.declaredAt? a = some q) :
    c'.declaredAt? a = some ((matching h h' hperm).param q) := by
  have hkept := address?_recode h h' hperm q
  rw [h.address?_eq_some_iff.mpr hq] at hkept
  exact h'.address?_eq_some_iff.mp hkept

/-- A parameter and the one that it goes to are the same given one. -/
theorem parameter_matching {z : Catalog.Parameter} (hz : c.parameter? q = some z) :
    ∃ (y : Model.Parameter) (name : String) (z' : Catalog.Parameter),
      c'.parameter? ((matching h h' hperm).param q) = some z' ∧
      c.ReactorNamed name z.owner ∧ c'.ReactorNamed name z'.owner ∧
      y.Denotes c name z ∧ y.Denotes c' name z' := by
  cases haddress : c.address? q with
  | none =>
    have hsize := h.address?_eq_none_iff.mp haddress
    exact absurd (Catalog.hasParameter_of_some hz) (Nat.not_lt.mpr hsize)
  | some a =>
    have hq := h.address?_eq_some_iff.mp haddress
    obtain ⟨x, hx, hname, y, hy, z₁, hz₁, howner, hyz⟩ := h.exists_at hq
    obtain ⟨x', hx', hname', y', hy', z', hz', howner', hyz'⟩ :=
      h'.exists_at (declaredAt?_matching h h' hperm hq)
    cases eq_of_name h hperm hx hx' (hname.trans hname'.symm)
    rw [hy] at hy'
    cases hy'
    rw [hz] at hz₁
    cases hz₁
    exact ⟨y, a.1, z', hz', howner, howner', hyz, hyz'⟩

theorem parameter?_matching_eq_none (hq : c.parameter? q = none) :
    c'.parameter? ((matching h h' hperm).param q) = none := by
  have haddress : c.address? q = none := by simp [Catalog.address?, hq]
  have hstay : (matching h h' hperm).param q = q := by simp [matching, recode, haddress]
  have hkept := address?_recode h h' hperm q
  rw [show recode c.address? c'.declaredAt? q = q from hstay, haddress,
    h'.address?_eq_none_iff] at hkept
  rw [hstay]
  exact Array.getElem?_eq_none hkept

theorem supers_matching {x : Model.Reactor} {d d' : Catalog.Reactor} (hx : x.Denotes c d)
    (hx' : x.Denotes c' d') : d'.supers = d.supers.map (matching h h' hperm).reactor := by
  have hmoved : List.Forall₂ c'.ReactorNamed x.supers
      (d.supers.map (matching h h' hperm).reactor) := by
    rw [List.forall₂_map_right_iff]
    exact hx.supers.imp fun _ _ hs => reactorNamed_matching h h' hperm hs
  exact List.right_unique_forall₂'
    (fun _ _ _ hs hs' => hs.eq h'.closed h'.distinct hs') hx'.supers hmoved

theorem params_matching {d d' : Catalog.Reactor} {r r' : ReactorId} (hd : c.reactor? r = some d)
    (hd' : c'.reactor? r' = some d') (hname : d'.name = d.name)
    (hlength : d.params.length = d'.params.length) :
    d'.params = d.params.map (matching h h' hperm).param := by
  have hnamed := Catalog.named?_of_nodup h.distinct hd
  have hnamed' := Catalog.named?_of_nodup h'.distinct hd'
  rw [hname] at hnamed'
  apply List.ext_getElem? fun i => ?_
  rw [List.getElem?_map]
  cases hq : d.params[i]? with
  | none =>
    rw [List.getElem?_eq_none_iff] at hq
    simpa using hlength ▸ hq
  | some q =>
    -- both are declared at the same place
    have hat : c.declaredAt? (d.name, i) = some q := by simp [Catalog.declaredAt?, hnamed, hq]
    have hat' := declaredAt?_matching h h' hperm hat
    simpa [Catalog.declaredAt?, hnamed'] using hat'

theorem reactor?_matching (r : ReactorId) :
    c'.reactor? ((matching h h' hperm).reactor r) =
      (c.reactor? r).map (Catalog.Reactor.rename (matching h h' hperm)) := by
  cases hd : c.reactor? r with
  | none =>
    have hkept : nameOf? c' ((matching h h' hperm).reactor r) = nameOf? c r :=
      nameOf?_recode h h' hperm r
    simpa [nameOf?, hd] using hkept
  | some d =>
    have hnamed : c.ReactorNamed d.name r := ⟨d, hd, rfl⟩
    obtain ⟨d', hd', hname⟩ := reactorNamed_matching h h' hperm hnamed
    obtain ⟨x, hx, hden⟩ := h.exists_given hd
    obtain ⟨x', hx', hden'⟩ := h'.exists_given hd'
    cases eq_of_name h hperm hx hx' (hden.name.symm.trans (hname.symm.trans hden'.name))
    have hid := h.closed.reactor_id hd
    have hid' := h'.closed.reactor_id hd'
    have hsupers := supers_matching h h' hperm hden hden'
    have hparams := params_matching h h' hperm hd hd' hname
      (hden.parameters.length_eq.symm.trans hden'.parameters.length_eq)
    have hspan := hden'.span.trans hden.span.symm
    rw [hd', Option.map_some]
    cases d
    cases d'
    simp_all [Catalog.Reactor.rename]

theorem outlines_matching : c.Outlines (matching h h' hperm) c' where
  size := by simpa [Catalog.names] using (names_perm h h' hperm).length_eq.symm
  reactor := reactor?_matching h h' hperm
  name := by
    intro q
    cases hz : c.parameter? q with
    | none => simp [parameter?_matching_eq_none h h' hperm hz]
    | some z =>
      obtain ⟨y, name, z', hz', _, _, hyz, hyz'⟩ := parameter_matching h h' hperm hz
      rw [hz', Option.map_some, Option.map_some, hyz.name, hyz'.name]

/-- The catalogs of the same reactors in different orders differ in identities only. -/
theorem renames_matching : c.Renames (matching h h' hperm) c' where
  toOutlines := outlines_matching h h' hperm
  parameter := by
    intro q
    cases hz : c.parameter? q with
    | none => simp [parameter?_matching_eq_none h h' hperm hz]
    | some z =>
      obtain ⟨y, name, z', hz', howner, howner', hyz, hyz'⟩ := parameter_matching h h' hperm hz
      have hid := h.closed.parameter_id hz
      have hid' := h'.closed.parameter_id hz'
      have hreactor : z'.owner = (matching h h' hperm).reactor z.owner :=
        howner'.eq h'.closed h'.distinct (reactorNamed_matching h h' hperm howner)
      have hdefault : z'.default = z.default.map (Value.rename (matching h h' hperm)) := by
        apply Model.eq_of_denotes h'.closed h'.distinct hyz'.default
        rw [List.forall₂_map_right_iff]
        exact hyz.default.imp fun _ _ ht => (outlines_matching h h' hperm).denotes ht
      have hname := hyz'.name.trans hyz.name.symm
      have htype := hyz'.typeText.trans hyz.typeText.symm
      have hspan := hyz'.span.trans hyz.span.symm
      rw [hz', Option.map_some]
      cases z
      cases z'
      simp_all [Catalog.Parameter.rename]
  reactors := by
    have hnd : (c.reactors.toList.map (Catalog.Reactor.rename (matching h h' hperm))).Nodup := by
      apply List.Nodup.of_map (fun d : Catalog.Reactor => d.name)
      rw [List.map_map]
      exact h.distinct
    -- all different, all there, and as many as there are
    have hsub : c.reactors.toList.map (Catalog.Reactor.rename (matching h h' hperm)) ⊆
        c'.reactors.toList := by
      intro d' hd'
      obtain ⟨d, hd, rfl⟩ := List.mem_map.mp hd'
      have hfound := reactor?_matching h h' hperm d.id
      rw [h.closed.reactor?_of_mem hd] at hfound
      exact Catalog.mem_reactors hfound
    apply ((List.subperm_of_subset hnd hsub).perm_of_length_le _).symm
    simp [(outlines_matching h h' hperm).size]

end perm

end Model.Catalogued

/-! ## Programs -/

namespace Model

/-- A node of the place under other identities. -/
theorem Place.Denotes.rename {ρ : Renaming} {c c' : Catalog} (h : c.Outlines ρ c')
    {x : Place} {n : Assembly.Node} (hx : x.Denotes c n) : x.Denotes c' (n.rename ρ) where
  id := hx.id
  name := hx.name
  reactor := h.reactorNamed hx.reactor
  parent := hx.parent
  children := hx.children
  assignments := by
    show List.Forall₂ _ _ (n.assignments.map (Assignment.rename ρ))
    rw [List.forall₂_map_right_iff]
    apply hx.assignments.imp
    intro y z hyz
    refine ⟨h.standsFor hyz.target, ?_, hyz.span⟩
    show List.Forall₂ _ _ (z.values.map (Value.rename ρ))
    rw [List.forall₂_map_right_iff]
    exact hyz.values.imp fun _ _ ht => h.denotes ht
  span := hx.span

/-- The programs of a model and of the model with its reactors in another order differ in
    identities only. -/
theorem exists_renames {m : Model} {rs : List Reactor} (hperm : m.reactors.Perm rs)
    {p p' : Program} (h : Faithful m p) (h' : Faithful { m with reactors := rs } p') :
    ∃ ρ, Program.Renames ρ p p' := by
  have hcatalog := h.catalog.renames_matching h'.catalog hperm
  refine ⟨h.catalog.matching h'.catalog hperm, hcatalog, ?_, h'.options.trans h.options.symm⟩
  have hmoved : List.Forall₂ (Place.Denotes p'.catalog) m.places
      (p.assembly.rename (h.catalog.matching h'.catalog hperm)).nodes.toList := by
    rw [Assembly.rename, Array.toList_map, List.forall₂_map_right_iff]
    exact h.instances.imp fun _ _ hx => hx.rename hcatalog.toOutlines
  have hnodes := List.right_unique_forall₂'
    (fun _ _ _ hx hx' => hx.eq h'.catalog.closed h'.catalog.distinct hx') h'.instances hmoved
  exact congrArg Assembly.mk (Array.toList_inj.mp hnodes)

end Model

end Reactors
