import Reactors.Proofs.Model.Faults
import Reactors.Proofs.Program.Built

/-! # Binding is a history

    Every pass of binding makes edits and nothing else, each in range when its turn comes, whatever
    is reported on the way.  So the program that binding comes to is built by a history, and so is
    every program on the way there.
-/

namespace Reactors

/-! ## Edits in range -/

namespace Program

/-- A program comes of another one by edits, each in range when its turn comes. -/
inductive ComesOf (p : Program) : Program → Prop
  | refl : ComesOf p p
  | edit {p' p'' : Program} {e : Edit} (h : ComesOf p p') (hr : e.InRange p')
      (he : p'.edit? e = some p'') : ComesOf p p''

variable {p p' p'' : Program}

theorem ComesOf.single {e : Edit} (hr : e.InRange p) (he : p.edit? e = some p') : p.ComesOf p' :=
  ComesOf.refl.edit hr he

theorem ComesOf.trans (h : p.ComesOf p') (h' : p'.ComesOf p'') : p.ComesOf p'' := by
  induction h' with
  | refl => exact h
  | edit _ hr he ih => exact ih.edit hr he

theorem ComesOf.closed (h : p.ComesOf p') (hp : p.Closed) : p'.Closed := by
  induction h with
  | refl => exact hp
  | edit _ hr he ih => exact ih.edit hr he

/-- What comes of a built program is built. -/
theorem Built.comes {es : List Edit} (hp : Built es p) (h : p.ComesOf p') :
    ∃ fs, Built (es ++ fs) p' := by
  induction h with
  | refl => exact ⟨[], by simpa using hp⟩
  | @edit _ _ e _ hr he ih =>
    obtain ⟨fs, hbuilt⟩ := ih
    exact ⟨fs ++ [e], by simpa using hbuilt.edit hr he⟩

end Program

namespace Model

open Collect (Ensures)
open Program (ComesOf)

/-- A program as it is while it is bound. -/
abbrev draft (c : Catalog) (a : Assembly) : Program := { catalog := c, assembly := a }

variable {c c' : Catalog} {a : Assembly}

theorem comesOf_declare (name : String) (span : Span) :
    (draft c a).ComesOf (draft (c.declare name span) a) :=
  .single (e := .declare name span) trivial rfl

theorem comesOf_extend {r s : ReactorId} (hs : c.HasReactor s) (h : c.extend? r s = some c') :
    (draft c a).ComesOf (draft c' a) :=
  .single (e := .extend r s) ⟨Catalog.hasReactor_of_modifyReactor h, hs⟩
    (by simp [Program.edit?, h])

theorem comesOf_addParameter {r : ReactorId} {name : String} {typeText : Option String}
    {span : Span} (h : c.addParameter? r name typeText [] span = some c') :
    (draft c a).ComesOf (draft c' a) :=
  .single (e := .addParameter r name typeText [] span)
    ⟨Catalog.hasReactor_of_addParameter h, by simp⟩ (by simp [Program.edit?, h])

theorem comesOf_setDefault {q : ParamId} (hq : c.HasParameter q) {default : List Value}
    (hdefault : ∀ v ∈ default, c.Knows v) (h : c.setDefault? q default = some c') :
    (draft c a).ComesOf (draft c' a) :=
  .single (e := .setDefault q default) ⟨hq, hdefault⟩ (by simp [Program.edit?, h])

/-! ## Reactors -/

theorem declareAll_comes (rs : List Reactor) :
    (declareAll c rs).Ensures fun out _ => (draft c {}).ComesOf (draft out.1 {}) := by
  induction rs generalizing c with
  | nil => exact .pure .refl
  | cons r rs ih =>
    unfold declareAll
    split
    · exact .report_bind ih
    · exact ih.bind fun _ _ h => .pure ((comesOf_declare r.name r.span).trans h)

theorem bindSupers_comes (hc : c.Closed) (span : Span) (id : ReactorId) (names : List String) :
    (bindSupers span id c names).Ensures fun c' _ => (draft c {}).ComesOf (draft c' {}) := by
  induction names generalizing c with
  | nil => exact .pure .refl
  | cons name names ih =>
    refine (findReactor_ends c name span).ensures.bind fun o _ ⟨ho, _⟩ => ?_
    subst ho
    cases hd : c.named? name with
    | none => exact ih hc
    | some d =>
      have hthere := Catalog.hasReactor_of_some (hc.reactor?_of_named hd)
      refine .lookup_bind fun c₁ h₁ => ?_
      exact (ih (hc.extend hthere h₁)).mono fun _ _ h => (comesOf_extend hthere h₁).trans h

/-- A catalog that is closed makes a closed program before anything is placed. -/
theorem closed_draft (hc : c.Closed) : (draft c {}).Closed :=
  Program.closed_of_nodesInRange hc Assembly.linked_empty
    ⟨fun hn => by simp [Assembly.node?] at hn, fun hn => by simp [Assembly.node?] at hn⟩

theorem bindAllSupers_comes (hc : c.Closed) (ds : List (Reactor × ReactorId)) :
    (bindAllSupers c ds).Ensures fun c' _ => (draft c {}).ComesOf (draft c' {}) := by
  induction ds generalizing c with
  | nil => exact .pure .refl
  | cons x ds ih =>
    refine (bindSupers_comes hc x.1.span x.2 x.1.supers).bind fun c₁ _ h₁ => ?_
    exact (ih (h₁.closed (closed_draft hc)).catalog).mono fun _ _ h => h₁.trans h

/-! ## Parameters -/

theorem addParameters_comes (id : ReactorId) (ps : List Parameter) :
    (addParameters id c ps).Ensures fun out _ => (draft c {}).ComesOf (draft out.1 {}) := by
  induction ps generalizing c with
  | nil => exact .pure .refl
  | cons p ps ih =>
    refine .lookup_bind fun c₁ h₁ => ih.bind fun _ _ h => .pure ?_
    exact (comesOf_addParameter h₁).trans h

theorem addAllParameters_comes (ds : List (Reactor × ReactorId)) :
    (addAllParameters c ds).Ensures fun out _ => (draft c {}).ComesOf (draft out.1 {}) := by
  induction ds generalizing c with
  | nil => exact .pure .refl
  | cons x ds ih =>
    refine (addParameters_comes x.2 x.1.parameters).bind fun out _ h₁ => ?_
    exact ih.bind fun _ _ h => .pure (h₁.trans h)

theorem bindDefaults_comes (hc : c.Closed) (hn : c.names.Nodup) (added : List Added)
    (hadded : ∀ y ∈ added, c.HasReactor y.2.2 ∧ c.HasParameter y.2.1) :
    (bindDefaults c added).Ensures fun c' _ => (draft c {}).ComesOf (draft c' {}) := by
  induction added generalizing c with
  | nil => exact .pure .refl
  | cons y ys ih =>
    obtain ⟨p, id, owner⟩ := y
    obtain ⟨howner, hid⟩ := hadded _ List.mem_cons_self
    obtain ⟨d, hd⟩ := Catalog.hasReactor_iff.mp howner
    have hscope : ScopeOf c (.ok owner) (nameOf? c owner) := ⟨d, hd, by simp [nameOf?, hd]⟩
    refine (bindTerms_ends p.span hc hn hscope p.default).ensures.bind fun values _ hterms => ?_
    obtain ⟨_, hknown⟩ := hterms
    refine .lookup_bind fun c₁ h₁ => ?_
    have hsame := sameNames_setDefault h₁
    have hadded₁ : ∀ y ∈ ys, c₁.HasReactor y.2.2 ∧ c₁.HasParameter y.2.1 := fun y hy =>
      have h := hadded y (by simp [hy])
      ⟨h.1.mono (Nat.le_of_eq (Catalog.size_of_names hsame.names).symm),
        hsame.hasParameter_iff.mpr h.2⟩
    have hrest := ih (hc.setDefault hknown h₁) (hsame.names ▸ hn) hadded₁
    exact hrest.mono fun _ _ h => (comesOf_setDefault hid hknown h₁).trans h

/-! ## Instances -/

theorem knows_of_fits {r : ReactorId} {x : Reactors.Assignment} (h : Fits c r x) :
    (draft c a).KnowsAssignment x := by
  obtain ⟨q, hq, _⟩ := h.target
  exact ⟨Catalog.hasParameter_of_some hq, h.values⟩

theorem comesOf_addChild {parent : NodeId} (hparent : a.HasNode parent) {name : String}
    {r : ReactorId} (hr : c.HasReactor r) {xs : List Reactors.Assignment}
    (hxs : ∀ x ∈ xs, Fits c r x) {span : Span} {a' : Assembly}
    (h : a.addChild? parent name r xs span = some a') : (draft c a).ComesOf (draft c a') :=
  .single (e := .addChild parent name r xs span)
    ⟨hparent, hr, fun x hx => knows_of_fits (hxs x hx)⟩ (by simp [Program.edit?, h])

/-- The root is added first, and gets its assignments after, one by one. -/
theorem comesOf_root (name : String) {r : ReactorId} (hr : c.HasReactor r)
    {xs : List Reactors.Assignment} (hxs : ∀ x ∈ xs, Fits c r x) (span : Span) :
    (draft c {}).ComesOf (draft c (({} : Assembly).push name r none xs span)) := by
  induction xs using List.reverseRecOn with
  | nil => exact .single (e := .addRoot name r span) hr rfl
  | append_singleton xs x ih =>
    have hfirst := ih fun y hy => hxs y (List.mem_append_left _ hy)
    refine hfirst.edit (e := .assign ⟨0⟩ x) ⟨?_, knows_of_fits (hxs x (by simp))⟩ rfl
    show 0 < _
    simp

mutual

theorem place_comes (hc : c.Closed) (hn : c.names.Nodup) (parent : NodeId) (a : Assembly)
    (ha : (draft c a).Closed) : (i : Instance) →
    (place c parent a i).Ensures fun a' _ => (draft c a).ComesOf (draft c a')
  | ⟨name, reactor, assignments, children, span⟩ => by
    rw [place]
    refine .lookup_bind fun outer houter => .lookup_bind fun o _ => ?_
    cases o with
    | some first => exact .report_bind (.pure .refl)
    | none =>
      refine (findReactor_ends c reactor span).ensures.bind fun o _ ⟨ho, _⟩ => ?_
      subst ho
      cases he : c.named? reactor with
      | none => exact .pure .refl
      | some d =>
        have he' := hc.reactor?_of_named he
        have henclosing : ∀ s, some outer.reactor = some s → c.HasReactor s := fun s hs =>
          Option.some.inj hs ▸ ha.reactor houter
        refine (bindAssignments_ends hc hn he' (some outer.reactor) henclosing name
          assignments).ensures.bind fun bound _ ⟨hfits, _⟩ => ?_
        refine .lookup_bind fun placed hplaced => ?_
        have hstep : (draft c a).ComesOf (draft c placed) :=
          comesOf_addChild (Assembly.hasNode_of_some houter) (Catalog.hasReactor_of_some he') hfits
            hplaced
        exact (placeAll_comes hc hn a.nextNode placed (hstep.closed ha) children).mono
          fun _ _ h => hstep.trans h

theorem placeAll_comes (hc : c.Closed) (hn : c.names.Nodup) (parent : NodeId) (a : Assembly)
    (ha : (draft c a).Closed) : (is : List Instance) →
    (placeAll c parent a is).Ensures fun a' _ => (draft c a).ComesOf (draft c a')
  | [] => .pure .refl
  | i :: is => by
    rw [placeAll]
    refine (place_comes hc hn parent a ha i).bind fun a₁ _ h₁ => ?_
    exact (placeAll_comes hc hn parent a₁ (h₁.closed ha) is).mono fun _ _ h => h₁.trans h

end

theorem placeMain_comes (hc : c.Closed) (hn : c.names.Nodup) (main : Instance) :
    (placeMain c main).Ensures fun a _ => (draft c {}).ComesOf (draft c a) := by
  refine (findReactor_ends c main.reactor main.span).ensures.bind fun o _ ⟨ho, _⟩ => ?_
  subst ho
  cases hd : c.named? main.reactor with
  | none => exact .pure .refl
  | some d =>
    have hd' := hc.reactor?_of_named hd
    refine (bindAssignments_ends hc hn hd' none (by simp) main.name
      main.assignments).ensures.bind fun bound _ ⟨hfits, _⟩ => ?_
    have hroot := comesOf_root main.name (Catalog.hasReactor_of_some hd') hfits main.span
    exact (placeAll_comes hc hn _ _ (hroot.closed (closed_draft hc)) main.children).mono
      fun _ _ h => hroot.trans h

/-! ## Models -/

theorem bindReactors_comes (rs : List Reactor) :
    (bindReactors rs).Ensures fun c _ => (draft {} {}).ComesOf (draft c {}) := by
  refine (bindReactors_passes rs).ensures.mono fun c es ⟨h⟩ => ?_
  have h₁ := declareAll_comes rs _ _ h.declare
  have h₂ := bindAllSupers_comes h.closed h.ds _ _ h.bind
  -- the search for circles makes no edit
  have h₃ := addAllParameters_comes h.ds _ _ h.add
  have h₄ := bindDefaults_comes h.adds.closed h.nodup_grown h.added h.there _ _ h.setDefaults
  exact ((h₁.trans h₂).trans h₃).trans h₄

/-- What binding comes to is built by a history, save for the options. -/
theorem bindAll_built (m : Model) :
    (bindAll m).Ensures fun p _ =>
      ∃ history, Program.Built history { p with options := .standard } := by
  unfold bindAll
  refine (checkOptions_ends m.options).ensures.bind fun _ _ _ => ?_
  refine ((bindReactors_ends m.reactors).and (bindReactors_comes m.reactors)).ensures.bind ?_
  intro c _ ⟨⟨hc, hn, _⟩, hcatalog⟩
  refine (placeMain_comes hc hn m.main).bind fun a _ hassembly => .pure ?_
  simpa using Program.Built.nothing.comes (hcatalog.trans hassembly)

end Model

end Reactors
