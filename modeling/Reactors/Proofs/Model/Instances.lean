import Reactors.Proofs.Assembly.Walk
import Reactors.Proofs.Model.Terms

/-! # Placing instances

    Instances are placed inside a node one after the other, each with everything inside it.  What is
    left out is reported, so nothing is reported exactly if the instances are bound and no two
    beside one another have one name.  What is placed fits the catalog, whatever is reported.
-/

namespace Reactors.Model

open Collect (Ends)

variable {c : Catalog} {a : Assembly}

/-! ## Assignments -/

/-- An assignment that fits an instance of `r`: it sets the parameter that its name stands for
    there, and refers to parameters that are there. -/
structure Fits (c : Catalog) (r : ReactorId) (x : Reactors.Assignment) : Prop where
  target : ∃ q, c.parameter? x.target = some q ∧ c.findParameter? r q.name = some (some q)
  values : ∀ v ∈ x.values, c.Knows v

/-- The name of the reactor around an instance. -/
def outerName (c : Catalog) (enclosing : Option ReactorId) : Option String :=
  enclosing.bind fun r => (c.reactor? r).map (·.name)

theorem scopeOf_assignmentScope {enclosing : Option ReactorId}
    (h : ∀ r, enclosing = some r → c.HasReactor r) (inst : String) (x : Assignment) :
    ScopeOf c (assignmentScope enclosing inst x) (outerName c enclosing) := by
  cases enclosing with
  | none => rfl
  | some r =>
    obtain ⟨d, hd⟩ := Catalog.hasReactor_iff.mp (h r rfl)
    exact ⟨d, hd, by simp [outerName, hd]⟩

theorem bindAssignments_ends (hc : c.Closed) (hn : c.names.Nodup) {r : ReactorId}
    {d : Catalog.Reactor} (hd : c.reactor? r = some d) (enclosing : Option ReactorId)
    (henclosing : ∀ s, enclosing = some s → c.HasReactor s) (inst : String)
    (xs : List Assignment) :
    (bindAssignments c r enclosing inst xs).Ends fun ys es => (∀ y ∈ ys, Fits c r y) ∧
      (es = [] ↔ ∀ x ∈ xs, x.Bound c.nameTable d.name (outerName c enclosing)) := by
  induction xs with
  | nil => exact .pure ⟨by simp, by simp⟩
  | cons x xs ih =>
    unfold bindAssignments
    apply (bindName_ends hc x.span (Catalog.hasReactor_of_some hd) x.target).bind
    intro o es ⟨hes, hsome, hfound⟩
    have htarget : es = [] ↔ c.nameTable.parameter d.name x.target := by
      rw [hes, Catalog.parameter_nameTable_iff hc hn hd]
    cases o with
    | none =>
      -- the target is reported, and the assignment left out
      have hne : es ≠ [] := fun h => hsome.mp h rfl
      apply ih.mono
      intro ys fs ⟨hys, _⟩
      refine ⟨hys, iff_of_false (by simp [hne]) fun h => hne (htarget.mpr ?_)⟩
      exact (h x (by simp)).target
    | some q =>
      obtain ⟨p, hp, hq, hname⟩ := hfound q rfl
      have hnil : es = [] := hsome.mpr (by simp)
      apply (bindTerms_ends x.span hc hn (scopeOf_assignmentScope henclosing inst x) x.terms).bind
      intro values fs ⟨hfs, hvalues⟩
      apply ih.bind
      intro ys gs ⟨hys, hgs⟩
      refine .pure ⟨?_, ?_⟩
      · intro y hy
        rcases List.mem_cons.mp hy with rfl | hy
        · exact ⟨⟨p, hq, by rw [hname]; exact hp⟩, hvalues⟩
        · exact hys y hy
      · have hhead : fs = [] ↔ x.Bound c.nameTable d.name (outerName c enclosing) := by
          rw [hfs]
          exact ⟨fun h => ⟨htarget.mp hnil, h⟩, fun h => h.terms⟩
        rw [List.append_nil, List.append_eq_nil_iff, List.append_eq_nil_iff, hhead, hgs]
        simp [hnil]

/-! ## Nodes -/

/-- Instances in a tree below one root that all fit the catalog. -/
structure Populates (c : Catalog) (a : Assembly) : Prop extends a.Rooted where
  reactor : ∀ {i n}, a.node? i = some n → c.HasReactor n.reactor
  assignments : ∀ {i n}, a.node? i = some n → ∀ x ∈ n.assignments, Fits c n.reactor x

theorem populates_empty : Populates c {} where
  toLinked := Assembly.linked_empty
  alone h := by simp [Assembly.node?] at h
  older h := by simp [Assembly.node?] at h
  reactor h := by simp [Assembly.node?] at h
  assignments h := by simp [Assembly.node?] at h

section place
variable {name : String} {r : ReactorId} {xs : List Reactors.Assignment} {span : Span}

theorem populates_first (hr : c.HasReactor r) (hxs : ∀ x ∈ xs, Fits c r x) :
    Populates c (({} : Assembly).push name r none xs span) := by
  refine ⟨Assembly.rooted_first name r xs span, ?_, ?_⟩
  · intro i n h
    rw [Assembly.node?_push] at h
    split at h
    · cases h; exact hr
    · simp [Assembly.node?] at h
  · intro i n h
    rw [Assembly.node?_push] at h
    split at h
    · cases h; exact hxs
    · simp [Assembly.node?] at h

theorem Populates.addChild {a' : Assembly} (ha : Populates c a) {parent : NodeId}
    (hparent : a.HasNode parent) (hr : c.HasReactor r) (hxs : ∀ x ∈ xs, Fits c r x)
    (h : a.addChild? parent name r xs span = some a') : Populates c a' := by
  refine ⟨ha.toRooted.addChild hparent h, ?_, ?_⟩
  · intro i n' hn'
    rcases Assembly.addChild_cases h hn' with ⟨_, rfl⟩ | ⟨n, hn, rfl⟩
    · exact hr
    · have hreactor := ha.reactor hn
      exact hreactor
  · intro i n' hn'
    rcases Assembly.addChild_cases h hn' with ⟨_, rfl⟩ | ⟨n, hn, rfl⟩
    · exact hxs
    · have hfits := ha.assignments hn
      exact hfits

end place

/-! ## Instances -/

/-- A child of a name is found exactly if there is one. -/
theorem childNamed?_spec (ha : a.Linked) {i : NodeId} {n : Assembly.Node} (hn : a.node? i = some n)
    (name : String) :
    ∃ o, childNamed? a n name = some o ∧ (o = none ↔ name ∉ a.childNames i) := by
  have hthere : ∀ j ∈ n.children, ∃ m, a.node? j = some m := by
    intro j hj
    obtain ⟨m, hm, _⟩ := ha.child hn hj
    exact ⟨m, hm⟩
  obtain ⟨ms, hms⟩ := Lookup.exists_mapM hthere
  have hnames : a.childNames i = ms.map (·.name) := by
    unfold Assembly.childNames Assembly.inside
    rw [hn]
    exact Lookup.filterMap_of_mapM hms (·.name)
  refine ⟨ms.find? fun m => m.name == name, by simp [childNamed?, hms], ?_⟩
  rw [hnames, List.find?_eq_none]
  simp

theorem Instance.bound_iff {ν : Names} {outer : Option String} {i : Instance} :
    i.Bound ν outer ↔ ν.reactor i.reactor ∧ (∀ x ∈ i.assignments, x.Bound ν i.reactor outer) ∧
      (i.children.map (·.name)).Nodup ∧ ∀ j ∈ i.children, j.Bound ν (some i.reactor) := by
  constructor
  · intro ⟨h₁, h₂, h₃, h₄⟩
    exact ⟨h₁, h₂, h₃, h₄⟩
  · intro ⟨h₁, h₂, h₃, h₄⟩
    exact ⟨h₁, h₂, h₃, h₄⟩

mutual

/-- An instance is placed as a whole, or reported and left out.  It is placed without a report
    exactly if its name is free and it is bound. -/
theorem place_ends (hc : c.Closed) (hn : c.names.Nodup) (a : Assembly) (ha : Populates c a)
    {parent : NodeId} {n : Assembly.Node} (hparent : a.node? parent = some n)
    {d : Catalog.Reactor} (hd : c.reactor? n.reactor = some d) :
    (i : Instance) → (place c parent a i).Ends fun a' es => Populates c a' ∧ a.Extended a' parent ∧
      (es = [] ↔ i.name ∉ a.childNames parent ∧ i.Bound c.nameTable (some d.name)) ∧
      ((i.name ∉ a.childNames parent ∧ a'.childNames parent = a.childNames parent ++ [i.name]) ∨
        (es ≠ [] ∧ a'.childNames parent = a.childNames parent))
  | ⟨name, reactor, assignments, children, span⟩ => by
    have hthere := Assembly.hasNode_of_some hparent
    obtain ⟨o, ho, hfree⟩ := childNamed?_spec ha.toLinked hparent name
    rw [place, Collect.lookup_bind hparent, Collect.lookup_bind ho, Instance.bound_iff]
    cases o with
    | some first =>
      -- the name is taken, so the instance is reported and left out
      have htaken : ¬ name ∉ a.childNames parent := fun h => by simpa using hfree.mpr h
      exact .report_bind (.pure ⟨ha, .refl a parent, by simp [htaken], .inr ⟨by simp, rfl⟩⟩)
    | none =>
      have hname : name ∉ a.childNames parent := hfree.mp rfl
      apply (findReactor_ends c reactor span).bind
      intro o es ⟨ho, hes⟩
      subst ho
      cases he : c.named? reactor with
      | none =>
        -- so it is if its reactor is unknown
        have hunknown : ¬ c.nameTable.reactor reactor := Catalog.named?_eq_none_iff.mp he
        have hne : es ≠ [] := fun h => hunknown (hes.mp h)
        exact .pure ⟨ha, .refl a parent, by simp [hne, hunknown], .inr ⟨by simp [hne], rfl⟩⟩
      | some e =>
        have hknown : c.nameTable.reactor reactor := Catalog.named?_isSome_iff.mp ⟨e, he⟩
        have hnil : es = [] := hes.mpr hknown
        have he' := hc.reactor?_of_named he
        obtain ⟨hename, -⟩ := Catalog.named?_eq_some he
        have houter : outerName c (some n.reactor) = some d.name := by simp [outerName, hd]
        refine (bindAssignments_ends hc hn he' (some n.reactor)
          (fun s hs => by cases hs; exact Catalog.hasReactor_of_some hd) name assignments).bind ?_
        intro bound fs ⟨hfits, hfs⟩
        obtain ⟨placed, hplaced⟩ :
            ∃ placed, a.addChild? parent name e.id bound span = some placed :=
          Assembly.exists_addChild hthere
        rw [Collect.lookup_bind hplaced]
        have hpop := ha.addChild hthere (Catalog.hasReactor_of_some he') hfits hplaced
        have hext := Assembly.Extended.addChild hthere hplaced
        obtain ⟨hchildren, hinside⟩ := Assembly.childNames_addChild ha.toLinked hthere hplaced
        -- from here on, everything grows inside the new node
        have hnew : ∃ m, placed.node? a.nextNode = some m ∧ m.reactor = e.id := by
          rw [Assembly.node?_addChild hplaced]
          simp [(Assembly.ne_nextNode hthere).symm]
        obtain ⟨m, hm, hmr⟩ := hnew
        apply (placeAll_ends hc hn placed hpop hm (hmr ▸ he') children (by simp [hinside])).mono
        intro a' gs ⟨hpop', hext', hgs⟩
        have hsame : a'.childNames parent = placed.childNames parent :=
          hext'.childNames_of_ne hpop.toLinked (hthere.mono hext.size) (Assembly.ne_nextNode hthere)
        refine ⟨hpop', hext.trans_inner Assembly.not_hasNode_nextNode hext', ?_,
          .inl ⟨hname, hsame.trans hchildren⟩⟩
        rw [List.append_eq_nil_iff, List.append_eq_nil_iff, hfs, hgs, hinside, hename, houter]
        simp [hnil, hname, hknown]

/-- Instances beside one another are placed without a report exactly if their names are different,
    also from those that are there, and each of them is bound. -/
theorem placeAll_ends (hc : c.Closed) (hn : c.names.Nodup) (a : Assembly) (ha : Populates c a)
    {parent : NodeId} {n : Assembly.Node} (hparent : a.node? parent = some n)
    {d : Catalog.Reactor} (hd : c.reactor? n.reactor = some d) :
    (is : List Instance) → (a.childNames parent).Nodup →
    (placeAll c parent a is).Ends fun a' es => Populates c a' ∧ a.Extended a' parent ∧
      (es = [] ↔ (a.childNames parent ++ is.map (·.name)).Nodup ∧
        ∀ i ∈ is, i.Bound c.nameTable (some d.name))
  | [], hnd => .pure ⟨ha, .refl a parent, by simpa using hnd⟩
  | i :: is, hnd => by
    rw [placeAll]
    apply (place_ends hc hn a ha hparent hd i).bind
    intro a₁ es ⟨ha₁, hext₁, hes, hchildren⟩
    obtain ⟨n₁, hn₁, _, hreactor⟩ := hext₁.node hparent
    have hnd₁ : (a₁.childNames parent).Nodup := by
      rcases hchildren with ⟨hfree, happ⟩ | ⟨_, hsame⟩
      · rw [happ, List.nodup_append_comm]
        exact List.nodup_cons.mpr ⟨hfree, hnd⟩
      · rwa [hsame]
    apply (placeAll_ends hc hn a₁ ha₁ hn₁ (hreactor ▸ hd) is hnd₁).mono
    intro a' fs ⟨ha', hext', hfs⟩
    refine ⟨ha', hext₁.trans hext', ?_⟩
    rw [List.append_eq_nil_iff, hes, hfs]
    rcases hchildren with ⟨hfree, happ⟩ | ⟨hne, _⟩
    · rw [happ]
      simp only [List.map_cons, List.forall_mem_cons, List.append_assoc, List.singleton_append]
      tauto
    · -- the first one was left out: its name was taken, or it is not bound
      have hnot := mt hes.mpr hne
      refine iff_of_false (fun h => hnot h.1) fun h => hnot ⟨?_, h.2 i (by simp)⟩
      intro hmem
      exact (List.nodup_append.mp h.1).2.2 _ hmem i.name (by simp) rfl

end

/-- Placing the instance that contains all others reports nothing exactly if it is bound. -/
theorem placeMain_ends (hc : c.Closed) (hn : c.names.Nodup) (main : Instance) :
    (placeMain c main).Ends fun a es => Populates c a ∧
      (es = [] ↔ main.Bound c.nameTable none) := by
  unfold placeMain
  rw [Instance.bound_iff]
  apply (findReactor_ends c main.reactor main.span).bind
  intro o es ⟨ho, hes⟩
  subst ho
  cases hd : c.named? main.reactor with
  | none =>
    have hunknown : ¬ c.nameTable.reactor main.reactor := Catalog.named?_eq_none_iff.mp hd
    have hne : es ≠ [] := fun h => hunknown (hes.mp h)
    exact .pure ⟨populates_empty, by simp [hne, hunknown]⟩
  | some d =>
    have hknown : c.nameTable.reactor main.reactor := Catalog.named?_isSome_iff.mp ⟨d, hd⟩
    have hnil : es = [] := hes.mpr hknown
    have hd' := hc.reactor?_of_named hd
    obtain ⟨hname, -⟩ := Catalog.named?_eq_some hd
    apply (bindAssignments_ends hc hn hd' none (by simp) main.name main.assignments).bind
    intro bound fs ⟨hfits, hfs⟩
    have hpop : Populates c (({} : Assembly).push main.name d.id none bound main.span) :=
      populates_first (Catalog.hasReactor_of_some hd') hfits
    obtain ⟨n, hroot, hreactor⟩ :
        ∃ n, (({} : Assembly).push main.name d.id none bound main.span).node? ({} : Assembly).nextNode
          = some n ∧ n.reactor = d.id := by
      rw [Assembly.node?_push]
      simp
    -- nothing is inside the first node yet, so no name is taken
    have hnames : (({} : Assembly).push main.name d.id none bound main.span).childNames
        ({} : Assembly).nextNode = [] := by
      unfold Assembly.childNames Assembly.inside
      rw [Assembly.node?_push]
      simp
    apply (placeAll_ends hc hn _ hpop hroot (hreactor ▸ hd') main.children (by simp [hnames])).mono
    intro a gs ⟨ha, _, hgs⟩
    refine ⟨ha, ?_⟩
    rw [List.append_eq_nil_iff, List.append_eq_nil_iff, hfs, hgs, hnames, hname]
    simp [hnil, hknown, outerName]

end Reactors.Model
