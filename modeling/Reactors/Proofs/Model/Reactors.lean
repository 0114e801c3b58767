import Reactors.Proofs.Catalog.Cycle
import Reactors.Proofs.Model.Terms

/-! # Binding reactors

    The passes over the reactors of a model one after the other: what each of them makes of a
    catalog, and when it reports nothing.  A pass over a closed catalog always ends, and leaves a
    closed catalog, whatever it reports.
-/

namespace Reactors.Model

open Collect (Ends)

variable {c : Catalog}

/-! ## Declared reactors -/

/-- The reactors of a catalog are the declared ones, in order. -/
structure Declared (c : Catalog) (ds : List (Reactor × ReactorId)) : Prop where
  /-- Their identities are all there are. -/
  ids : ds.map (·.2) = (List.range c.reactors.size).map ReactorId.mk
  /-- They have their names. -/
  names : c.names = ds.map (·.1.name)

namespace Declared

variable {ds : List (Reactor × ReactorId)}

theorem mono (h : Declared c ds) {c' : Catalog} (hnames : c'.names = c.names)
    (hsize : c'.reactors.size = c.reactors.size) : Declared c' ds where
  ids := by rw [h.ids, hsize]
  names := by rw [hnames, h.names]

/-- A declared reactor is found under its identity and has its name. -/
theorem exists_reactor (h : Declared c ds) {x : Reactor × ReactorId} (hx : x ∈ ds) :
    ∃ d, c.reactor? x.2 = some d ∧ d.name = x.1.name := by
  obtain ⟨i, hi, rfl⟩ := List.mem_iff_getElem.mp hx
  have hid : (ds.map (·.2))[i]? = ((List.range c.reactors.size).map ReactorId.mk)[i]? := by
    rw [h.ids]
  have hname := Catalog.getElem?_names (c := c) i
  rw [h.names, List.getElem?_map, List.getElem?_eq_getElem hi] at hname
  rw [List.getElem?_map, List.getElem?_eq_getElem hi, List.getElem?_map] at hid
  obtain ⟨j, hj, hj'⟩ := Option.map_eq_some_iff.mp hid.symm
  have hij : j = i := by
    obtain ⟨_, he⟩ := List.getElem?_eq_some_iff.mp hj
    simpa using he.symm
  obtain ⟨d, hd, hdname⟩ := Option.map_eq_some_iff.mp hname.symm
  have hid' : ds[i].2 = ⟨i⟩ := hj'.symm.trans (congrArg ReactorId.mk hij)
  exact ⟨d, by rw [hid']; exact hd, hdname⟩

theorem hasReactor (h : Declared c ds) {x : Reactor × ReactorId} (hx : x ∈ ds) :
    c.HasReactor x.2 := by
  obtain ⟨d, hd, _⟩ := h.exists_reactor hx
  exact Catalog.hasReactor_of_some hd

/-- Every reactor of the catalog was declared. -/
theorem mem_ids (h : Declared c ds) {r : ReactorId} (hr : c.HasReactor r) :
    r ∈ ds.map (·.2) := by
  rw [h.ids]
  exact List.mem_map.mpr ⟨r.index, List.mem_range.mpr hr, rfl⟩

/-- No identity was given twice. -/
theorem nodup (h : Declared c ds) : (ds.map (·.2)).Nodup := by
  rw [h.ids]
  exact List.nodup_range.map fun i j hij => by simpa using hij

/-- What is said of a declared reactor by its identity is said of it alone. -/
theorem filter_eq (h : Declared c ds) {x : Reactor × ReactorId} (hx : x ∈ ds) :
    ds.filter (fun y => y.2 = x.2) = [x] := by
  have hnd := h.nodup
  clear h
  induction ds with
  | nil => simp at hx
  | cons y ys ih =>
    rw [List.map_cons, List.nodup_cons] at hnd
    rcases List.mem_cons.mp hx with rfl | hx
    · have hnil : ys.filter (fun y => y.2 = x.2) = [] := by
        rw [List.filter_eq_nil_iff]
        intro z hz hzx
        exact hnd.1 (List.mem_map.mpr ⟨z, hz, by simpa using hzx⟩)
      simp [hnil]
    · have hne : y.2 ≠ x.2 := fun e => hnd.1 (e ▸ List.mem_map_of_mem hx)
      simp [hne, ih hx hnd.2]

end Declared

/-! ## Declaring -/

/-- A catalog with nothing but the names of its reactors. -/
structure Bare (c : Catalog) : Prop where
  supers : ∀ r, c.supers r = []
  own : ∀ r, c.own r = []

theorem Bare.declare (h : Bare c) (name : String) (span : Span) : Bare (c.declare name span) := by
  constructor
  · intro r
    rw [Catalog.supers_declare, h.supers]
    simp
  · intro r
    rw [Catalog.own_declare, h.own]
    simp

/-- Reactors are declared in order under the next identities; one whose name is taken is reported
    and left out. -/
theorem declareAll_ends (hc : c.Closed) (hn : c.names.Nodup) (hb : Bare c) (rs : List Reactor) :
    (declareAll c rs).Ends fun out es =>
      out.1.Closed ∧ out.1.names.Nodup ∧ Bare out.1 ∧
      out.1.reactors.size = c.reactors.size + out.2.length ∧
      out.2.map (·.2) = (List.range' c.reactors.size out.2.length).map ReactorId.mk ∧
      out.1.names = c.names ++ out.2.map (·.1.name) ∧
      (es = [] → out.2.map (·.1) = rs) ∧ (es = [] ↔ (c.names ++ rs.map (·.name)).Nodup) := by
  induction rs generalizing c with
  | nil => exact .pure ⟨hc, hn, hb, by simp, by simp, by simp, by simp, by simpa using hn⟩
  | cons r rs ih =>
    unfold declareAll
    cases hd : c.named? r.name with
    | some first =>
      -- reported and left out; the names of the model repeat one then
      have htaken : r.name ∈ c.names := Catalog.named?_isSome_iff.mp ⟨first, hd⟩
      refine .report_bind ((ih hc hn hb).mono ?_)
      intro out es ⟨h₁, h₂, h₃, h₄, h₅, h₆, _, _⟩
      refine ⟨h₁, h₂, h₃, h₄, h₅, h₆, by simp, iff_of_false (by simp) fun h => ?_⟩
      exact (List.nodup_append.mp h).2.2 _ htaken r.name (by simp) rfl
    | none =>
      have hfree : r.name ∉ c.names := Catalog.named?_eq_none_iff.mp hd
      have hn' : (c.declare r.name r.span).names.Nodup := by
        rw [Catalog.names_declare, List.nodup_append_comm]
        exact List.nodup_cons.mpr ⟨hfree, hn⟩
      apply (ih (hc.declare r.name r.span) hn' (hb.declare _ _)).bind
      intro ⟨final, ds⟩ es ⟨h₁, h₂, h₃, h₄, h₅, h₆, h₇, h₈⟩
      refine .pure ⟨h₁, h₂, h₃, ?_, ?_, ?_, ?_, ?_⟩
      · simp only [List.length_cons, Catalog.size_declare] at h₄ ⊢
        omega
      · simp only [List.map_cons, List.length_cons, List.range'_succ, Catalog.size_declare] at h₅ ⊢
        rw [h₅]
        rfl
      · rw [h₆]
        simp
      · intro h
        rw [List.append_nil] at h
        simp [h₇ h]
      · rw [List.append_nil, h₈]
        simp

/-- Where nothing was before, the reactors of the catalog are the declared ones, and nothing is
    reported exactly if no name is repeated. -/
theorem declareAll_empty_ends (rs : List Reactor) :
    (declareAll {} rs).Ends fun out es => out.1.Closed ∧ out.1.names.Nodup ∧ Bare out.1 ∧
      Declared out.1 out.2 ∧ (es = [] → out.2.map (·.1) = rs) ∧
      (es = [] ↔ (rs.map (·.name)).Nodup) := by
  have hbare : Bare {} := ⟨fun _ => by simp [Catalog.supers, Catalog.reactor?],
    fun _ => by simp [Catalog.own, Catalog.reactor?]⟩
  apply (declareAll_ends Catalog.closed_empty (by simp [Catalog.names]) hbare rs).mono
  intro out es h
  obtain ⟨final, ds⟩ := out
  obtain ⟨hc, hn, hb, hsize, hids, hnames, hrs, hes⟩ := h
  have hsize' : final.reactors.size = ds.length := by simpa using hsize
  have hdeclared : Declared final ds := by
    refine ⟨?_, by simpa [Catalog.names] using hnames⟩
    rw [hsize', hids, List.range_eq_range']
    rfl
  exact ⟨hc, hn, hb, hdeclared, hrs, by simpa [Catalog.names] using hes⟩

/-! ## Extending -/

/-- The identity of the reactor of a name. -/
def idOf? (c : Catalog) (name : String) : Option ReactorId := (c.named? name).map (·.id)

/-- Catalogs that differ in what their reactors extend. -/
structure SameButSupers (c c' : Catalog) : Prop where
  closed : c'.Closed
  names : c'.names = c.names
  own : ∀ r, c'.own r = c.own r
  parameters : c'.parameters = c.parameters
  idOf : idOf? c' = idOf? c

theorem SameButSupers.refl (hc : c.Closed) : SameButSupers c c :=
  ⟨hc, rfl, fun _ => rfl, rfl, rfl⟩

theorem SameButSupers.trans {c' c'' : Catalog} (h : SameButSupers c c')
    (h' : SameButSupers c' c'') : SameButSupers c c'' where
  closed := h'.closed
  names := h'.names.trans h.names
  own r := (h'.own r).trans (h.own r)
  parameters := h'.parameters.trans h.parameters
  idOf := h'.idOf.trans h.idOf

theorem SameButSupers.size {c' : Catalog} (h : SameButSupers c c') :
    c'.reactors.size = c.reactors.size :=
  Catalog.size_of_names h.names

/-- In a catalog without a repeated name, the reactor of a name is the one that has it. -/
theorem idOf?_eq_some_iff (hc : c.Closed) (hn : c.names.Nodup) {name : String} {r : ReactorId} :
    idOf? c name = some r ↔ (c.reactor? r).map (·.name) = some name := by
  unfold idOf?
  rw [Option.map_eq_some_iff, Option.map_eq_some_iff]
  constructor
  · intro ⟨d, hd, hr⟩
    subst hr
    exact ⟨d, hc.reactor?_of_named hd, (Catalog.named?_eq_some hd).1⟩
  · intro ⟨d, hd, hname⟩
    subst hname
    exact ⟨d, Catalog.named?_of_nodup hn hd, hc.reactor_id hd⟩

theorem idOf?_congr {c' : Catalog} (hc : c.Closed) (hc' : c'.Closed) (hn : c.names.Nodup)
    (hnames : c'.names = c.names) : idOf? c' = idOf? c := by
  funext name
  apply Option.ext
  intro r
  rw [idOf?_eq_some_iff hc' (hnames ▸ hn), idOf?_eq_some_iff hc hn]
  have h := Catalog.getElem?_names (c := c) r.index
  have h' := Catalog.getElem?_names (c := c') r.index
  rw [hnames] at h'
  rw [← show (⟨r.index⟩ : ReactorId) = r from rfl, ← h, ← h']

theorem bindSupers_ends (hc : c.Closed) (hn : c.names.Nodup) (span : Span) {id : ReactorId}
    (hid : c.HasReactor id) (names : List String) :
    (bindSupers span id c names).Ends fun c' es => SameButSupers c c' ∧
      (∀ r, c'.supers r = if r = id then c.supers r ++ names.filterMap (idOf? c) else c.supers r) ∧
      (es = [] ↔ ∀ a ∈ names, a ∈ c.names) := by
  induction names generalizing c with
  | nil => exact .pure ⟨.refl hc, by simp, by simp⟩
  | cons a names ih =>
    unfold bindSupers
    apply (findReactor_ends c a span).bind
    intro o es ⟨ho, hes⟩
    subst ho
    cases hd : c.named? a with
    | none =>
      -- the name is reported, and nothing is extended for it
      have hnot := Catalog.named?_eq_none_iff.mp hd
      have hnil : es ≠ [] := fun h => hnot (hes.mp h)
      apply (ih hc hn hid).mono
      intro c' fs ⟨h₁, h₂, _⟩
      refine ⟨h₁, fun r => ?_, iff_of_false (by simp [hnil]) fun h => hnot (h a (by simp))⟩
      rw [h₂, List.filterMap_cons_none (by simp [idOf?, hd])]
    | some d =>
      have hin : a ∈ c.names := Catalog.named?_isSome_iff.mp ⟨d, hd⟩
      have hnil : es = [] := hes.mpr hin
      obtain ⟨c₁, h₁⟩ : ∃ c₁, c.extend? id d.id = some c₁ := Catalog.exists_extend hid
      have hc₁ := hc.extend (Catalog.hasReactor_of_some (hc.reactor?_of_named hd)) h₁
      have hnames₁ := Catalog.names_extend h₁
      have hsame : SameButSupers c c₁ :=
        ⟨hc₁, hnames₁, Catalog.own_extend h₁, Catalog.parameters_extend h₁,
          idOf?_congr hc hc₁ hn hnames₁⟩
      show (Collect.lookup (c.extend? id d.id) >>= fun c => bindSupers span id c names).Ends _
      rw [Collect.lookup_bind h₁]
      have hid₁ : c₁.HasReactor id := hid.mono (Nat.le_of_eq hsame.size.symm)
      apply (ih hc₁ (hnames₁ ▸ hn) hid₁).mono
      intro c' fs ⟨h₂, h₃, h₄⟩
      refine ⟨hsame.trans h₂, fun r => ?_, ?_⟩
      · have hida : idOf? c a = some d.id := by simp [idOf?, hd]
        rw [h₃, Catalog.supers_extend h₁, hsame.idOf, List.filterMap_cons_some hida]
        by_cases hr : r = id <;> simp [hr]
      · rw [List.append_eq_nil_iff, h₄, hnames₁]
        simp [hnil, hin]

theorem bindAllSupers_ends (hc : c.Closed) (hn : c.names.Nodup)
    (ds : List (Reactor × ReactorId)) (hds : ∀ x ∈ ds, c.HasReactor x.2) :
    (bindAllSupers c ds).Ends fun c' es => SameButSupers c c' ∧
      (∀ r, c'.supers r = c.supers r ++ (ds.filter fun x => x.2 = r).flatMap fun x =>
        x.1.supers.filterMap (idOf? c)) ∧
      (es = [] ↔ ∀ x ∈ ds, ∀ a ∈ x.1.supers, a ∈ c.names) := by
  induction ds generalizing c with
  | nil => exact .pure ⟨.refl hc, by simp, by simp⟩
  | cons x ds ih =>
    unfold bindAllSupers
    apply (bindSupers_ends hc hn x.1.span (hds x (by simp)) x.1.supers).bind
    intro c₁ es ⟨h₁, h₂, h₃⟩
    have hds₁ : ∀ y ∈ ds, c₁.HasReactor y.2 := fun y hy =>
      (hds y (by simp [hy])).mono (Nat.le_of_eq h₁.size.symm)
    apply (ih h₁.closed (h₁.names ▸ hn) hds₁).mono
    intro c' fs ⟨h₄, h₅, h₆⟩
    refine ⟨h₁.trans h₄, fun r => ?_, ?_⟩
    · rw [h₅, h₂, h₁.idOf, List.filter_cons]
      by_cases hr : r = x.2
      · simp [hr]
      · simp [hr, Ne.symm hr]
    · rw [List.append_eq_nil_iff, h₃, h₆, h₁.names]
      simp

/-! ## Names and spans of reactors -/

/-- The name of a reactor and where it is declared. -/
def headOf? (c : Catalog) (r : ReactorId) : Lookup (String × Span) :=
  (c.reactor? r).map fun d => (d.name, d.span)

theorem headOf?_of_reactors {c' : Catalog} (h : c'.reactors = c.reactors) :
    headOf? c' = headOf? c := by
  funext r
  unfold headOf? Catalog.reactor?
  rw [h]

/-- A change of a reactor that leaves name and span as they are. -/
theorem headOf?_modify {c' : Catalog} {r : ReactorId} {f : Catalog.Reactor → Catalog.Reactor}
    (h : ∀ s, c'.reactor? s = if s = r then (c.reactor? s).map f else c.reactor? s)
    (hf : ∀ d, ((f d).name, (f d).span) = (d.name, d.span)) : headOf? c' = headOf? c := by
  funext s
  unfold headOf?
  rw [h]
  by_cases hs : s = r
  · rw [if_pos hs, Option.map_map]
    exact congrArg (fun g => (c.reactor? s).map g) (funext hf)
  · rw [if_neg hs]

theorem headOf?_bindSupers (span : Span) (id : ReactorId) (names : List String) :
    (bindSupers span id c names).Ensures fun c' _ => headOf? c' = headOf? c := by
  induction names generalizing c with
  | nil => exact .pure rfl
  | cons a names ih =>
    refine (findReactor_ends c a span).ensures.bind fun o _ _ => ?_
    cases o with
    | none => exact ih
    | some d =>
      refine .lookup_bind fun c₁ h₁ => ih.mono fun c' _ h => h.trans ?_
      exact headOf?_modify (Catalog.reactor?_extend h₁) fun _ => rfl

theorem headOf?_bindAllSupers (ds : List (Reactor × ReactorId)) :
    (bindAllSupers c ds).Ensures fun c' _ => headOf? c' = headOf? c := by
  induction ds generalizing c with
  | nil => exact .pure rfl
  | cons x ds ih =>
    refine (headOf?_bindSupers x.1.span x.2 x.1.supers).bind fun c₁ _ h₁ => ?_
    exact ih.mono fun _ _ h => h.trans h₁

/-- The declared reactors have the names and spans of the given ones. -/
theorem headOf?_declareAll (rs : List Reactor) :
    (declareAll c rs).Ensures fun out _ =>
      (∀ r, c.HasReactor r → headOf? out.1 r = headOf? c r) ∧
      (∀ x ∈ out.2, headOf? out.1 x.2 = some (x.1.name, x.1.span)) ∧
      out.1.parameters = c.parameters := by
  induction rs generalizing c with
  | nil => exact .pure ⟨fun _ _ => rfl, by simp, rfl⟩
  | cons r rs ih =>
    unfold declareAll
    split
    · exact .report_bind ih
    · refine ih.bind fun out _ ⟨hold, hnew, hparameters⟩ => .pure ⟨?_, ?_, hparameters⟩
      · intro s hs
        -- a reactor that is there has none of the identities that are given out
        have hne : s ≠ c.nextReactor := by
          intro e
          subst e
          exact Nat.lt_irrefl _ hs
        have hs' : (c.declare r.name r.span).HasReactor s := hs.mono (by simp)
        rw [hold s hs']
        unfold headOf?
        rw [Catalog.reactor?_declare, if_neg hne]
      · intro x hx
        rcases List.mem_cons.mp hx with rfl | hx
        · have hthere : (c.declare r.name r.span).HasReactor c.nextReactor := by
            show c.reactors.size < (c.declare r.name r.span).reactors.size
            simp
          rw [hold _ hthere]
          unfold headOf?
          rw [Catalog.reactor?_declare, if_pos rfl]
          rfl
        · exact hnew x hx

/-! ## Circles -/

/-- The report about a circle: the names of its reactors and once more that of the first, at the
    place where the first is declared. -/
def CircleReport (c : Catalog) (cycle : List ReactorId) (f : LoadFault) : Prop :=
  ∃ first rest, cycle.mapM (headOf? c) = some (first :: rest) ∧
    f = .cyclicExtends ((first :: rest).map (·.1) ++ [first.1]) first.2

/-- A reactor reports the circle that is found through it if it leads the circle. -/
theorem reportCycle_ends (hc : c.Closed) {id : ReactorId} (hid : c.HasReactor id) :
    (reportCycle c id).Ends fun _ es => ∃ cycles,
      List.Forall₂ (CircleReport c) cycles es ∧ c.Led [id] cycles := by
  obtain ⟨o, ho, hnone, hsome⟩ := hc.cycle?_spec hid
  unfold reportCycle
  rw [Collect.lookup_bind ho]
  cases o with
  | none =>
    have hcirc := hnone.mp rfl
    refine .pure ⟨[], .nil, by simp, by simp, ?_⟩
    intro r hr hr'
    rw [List.mem_singleton] at hr
    exact absurd (hr ▸ hr') hcirc
  | some cycle =>
    -- a circle leads through reactors that are there, each of which extends itself
    have hcircle := hsome cycle rfl
    have hthere : ∀ r ∈ cycle, ∃ d, c.reactor? r = some d := by
      intro r hr
      obtain ⟨s, hs, _⟩ := Relation.TransGen.head'_iff.mp (hcircle.circular hr)
      exact Catalog.hasReactor_iff.mp (Catalog.hasReactor_of_extends hs)
    obtain ⟨ds, hds⟩ := Lookup.exists_mapM hthere
    obtain ⟨d, hd⟩ := Catalog.hasReactor_iff.mp hid
    dsimp only
    split
    · next hall =>
      rw [Collect.lookup_bind hds, Collect.lookup_bind hd]
      have hleads : c.Leads id cycle := ⟨hcircle, Catalog.nodup_cycle? ho, by simpa using hall⟩
      have hreport : CircleReport c cycle
          (.cyclicExtends (ds.map (·.name) ++ [d.name]) d.span) := by
        obtain ⟨path, rfl, _⟩ := hcircle
        obtain ⟨first, rest, hfirst, hrest, rfl⟩ :=
          List.forall₂_cons_left_iff.mp (Lookup.mapM_eq_some_iff.mp hds)
        rw [hd] at hfirst
        cases hfirst
        have hheads : ((id :: path).map fun r => r).mapM (headOf? c) =
            ((id :: path).mapM c.reactor?).map (List.map fun d => (d.name, d.span)) :=
          Lookup.mapM_map fun _ _ => rfl
        rw [List.map_id', hds] at hheads
        exact ⟨_, _, hheads, by simp⟩
      refine .report ⟨[cycle], .cons hreport .nil, ?_, ?_, ?_⟩
      · simpa using ⟨id, hleads⟩
      · simp [hleads.head?]
      · simp [hleads.head?]
    · next hall =>
      refine .pure ⟨[], .nil, by simp, by simp, ?_⟩
      intro r hr _ hmin
      rw [List.mem_singleton] at hr
      subst hr
      refine absurd ?_ hall
      rw [List.all_eq_true]
      intro r hr
      simpa using hmin r (hcircle.mem_component hr)

/-- Every reactor has its turn to report. -/
theorem reportCycles_ends (hc : c.Closed) (ds : List (Reactor × ReactorId))
    (hds : ∀ x ∈ ds, c.HasReactor x.2) :
    (reportCycles c ds).Ends fun _ es => ∃ cycles,
      List.Forall₂ (CircleReport c) cycles es ∧ c.Led (ds.map (·.2)) cycles := by
  induction ds with
  | nil => exact .pure ⟨[], .nil, by simp, by simp, by simp⟩
  | cons x ds ih =>
    unfold reportCycles
    apply (reportCycle_ends hc (hds x (by simp))).bind
    intro _ es ⟨cycles, hes, hled⟩
    apply (ih fun y hy => hds y (by simp [hy])).mono
    intro _ fs ⟨more, hfs, hled'⟩
    exact ⟨cycles ++ more, List.rel_append hes hfs, hled.append hled'⟩

/-- Nothing is reported about circles exactly if no reactor extends itself. -/
theorem reportCycles_ends_iff (hc : c.Closed) {ds : List (Reactor × ReactorId)}
    (hds : Declared c ds) :
    (reportCycles c ds).Ends fun _ es => es = [] ↔ ∀ r, ¬ c.Circular r := by
  apply (reportCycles_ends hc ds fun x hx => hds.hasReactor hx).mono
  intro _ es ⟨cycles, hes, hled⟩
  rw [← hled.eq_nil_iff fun r hr => hds.mem_ids hr, ← List.length_eq_zero_iff,
    ← List.length_eq_zero_iff, hes.length_eq]

end Reactors.Model
