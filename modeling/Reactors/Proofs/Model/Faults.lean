import Reactors.Model.Elaborate
import Reactors.Proofs.Collect

/-! # What binding reports

    Every fault that binding a model reports is an error.  Faults about circles come from the search
    for circles alone; what all other passes report is about something else.
-/

namespace Reactors

/-- A fault about reactors that extend one another in a circle. -/
def LoadFault.isCircle : LoadFault → Bool
  | cyclicExtends .. => true
  | _ => false

/-- An error that is about something else than a circle. -/
structure LoadFault.Plain (f : LoadFault) : Prop where
  error : f.toDiagnostic.isError = true
  noCircle : f.isCircle = false

/-- A fault about a circle is an error. -/
theorem LoadFault.isError_of_isCircle {f : LoadFault} (h : f.isCircle = true) :
    f.toDiagnostic.isError = true := by
  cases f with
  | cyclicExtends chain span => rfl
  | _ => simp [LoadFault.isCircle] at h

/-- A fatal fault of a parameter is an error. -/
theorem LoadFault.plain_parameter {f : ParameterFault} (h : f.isFatal = true) :
    (LoadFault.parameter f).Plain := by
  refine ⟨?_, rfl⟩
  cases f with
  | ambiguousName reactor name first second => simp [ParameterFault.isFatal] at h
  | _ => rfl

namespace Model

open Collect (Reports)

variable {c : Catalog}

/-! ## Reactors -/

theorem findReactor_reports (name : String) (span : Span) :
    (findReactor c name span).Reports LoadFault.Plain := by
  unfold findReactor
  split
  · exact .pure
  · exact (Reports.report ⟨rfl, rfl⟩).bind fun _ => .pure

theorem declareAll_reports (rs : List Reactor) :
    (declareAll c rs).Reports LoadFault.Plain := by
  induction rs generalizing c with
  | nil => exact .pure
  | cons r rs ih =>
    unfold declareAll
    split
    · exact (Reports.report ⟨rfl, rfl⟩).bind fun _ => ih
    · exact ih.bind fun _ => .pure

theorem bindSupers_reports (span : Span) (id : ReactorId) (names : List String) :
    (bindSupers span id c names).Reports LoadFault.Plain := by
  induction names generalizing c with
  | nil => exact .pure
  | cons name names ih =>
    refine (findReactor_reports name span).bind fun o => ?_
    cases o with
    | none => exact ih
    | some super => exact Reports.lookup.bind fun _ => ih

theorem bindAllSupers_reports (ds : List (Reactor × ReactorId)) :
    (bindAllSupers c ds).Reports LoadFault.Plain := by
  induction ds generalizing c with
  | nil => exact .pure
  | cons x ds ih => exact (bindSupers_reports x.1.span x.2 x.1.supers).bind fun _ => ih

/-- The search for circles reports nothing but circles. -/
theorem reportCycles_reports (ds : List (Reactor × ReactorId)) :
    (reportCycles c ds).Reports fun f => f.isCircle = true := by
  induction ds with
  | nil => exact .pure
  | cons x ds ih =>
    refine Reports.bind ?_ fun _ => ih
    refine Reports.lookup.bind fun o => ?_
    cases o with
    | none => exact .pure
    | some cycle =>
      dsimp only
      split
      · exact Reports.lookup.bind fun _ => Reports.lookup.bind fun _ => .report rfl
      · exact .pure

/-! ## Terms -/

section terms
variable {scope : Scope} (span : Span)

theorem bindName_reports (r : ReactorId) (name : String) :
    (bindName c span r name).Reports LoadFault.Plain := by
  refine Reports.lookup.bind fun o => ?_
  cases o with
  | some p => exact .pure
  | none =>
    exact Reports.lookup.bind fun _ => (Reports.report ⟨rfl, rfl⟩).bind fun _ => .pure

/-- Where there is a reason that names alone are bound nowhere, it is reported as it is. -/
theorem bindReference_reports (hscope : ∀ fault, scope = .error fault → fault.isFatal = true)
    (r : Reference) : (bindReference c scope span r).Reports LoadFault.Plain := by
  cases r with
  | plain name =>
    cases scope with
    | ok r => exact bindName_reports span r name
    | error fault =>
      exact (Reports.report (LoadFault.plain_parameter (hscope fault rfl))).bind fun _ => .pure
  | qualified name reactor =>
    refine (findReactor_reports reactor span).bind fun o => ?_
    cases o with
    | none => exact .pure
    | some d => exact bindName_reports span d.id name

theorem bindDuration_reports (d : Duration) :
    (bindDuration span d).Reports LoadFault.Plain := by
  unfold bindDuration
  split
  · split
    · exact .pure
    · exact (Reports.report ⟨rfl, rfl⟩).bind fun _ => .pure
  · split
    · exact .pure
    · exact (Reports.report ⟨rfl, rfl⟩).bind fun _ => .pure

theorem bindTerm_reports (hscope : ∀ fault, scope = .error fault → fault.isFatal = true)
    (t : Term) : (bindTerm c scope span t).Reports LoadFault.Plain := by
  cases t with
  | time d => exact (bindDuration_reports span d).bind fun _ => .pure
  | param r => exact (bindReference_reports span hscope r).bind fun _ => .pure
  | _ => exact .pure

theorem bindTerms_reports (hscope : ∀ fault, scope = .error fault → fault.isFatal = true)
    (ts : List Term) : (bindTerms c scope span ts).Reports LoadFault.Plain := by
  induction ts with
  | nil => exact .pure
  | cons t ts ih =>
    exact (bindTerm_reports span hscope t).bind fun _ => ih.bind fun _ => .pure

end terms

/-! ## Parameters -/

theorem addParameters_reports (id : ReactorId) (ps : List Parameter) :
    (addParameters id c ps).Reports LoadFault.Plain := by
  induction ps generalizing c with
  | nil => exact .pure
  | cons p ps ih => exact Reports.lookup.bind fun _ => ih.bind fun _ => .pure

theorem addAllParameters_reports (ds : List (Reactor × ReactorId)) :
    (addAllParameters c ds).Reports LoadFault.Plain := by
  induction ds generalizing c with
  | nil => exact .pure
  | cons x ds ih =>
    exact (addParameters_reports x.2 x.1.parameters).bind fun _ => ih.bind fun _ => .pure

theorem bindDefaults_reports (added : List (Parameter × ParamId × ReactorId)) :
    (bindDefaults c added).Reports LoadFault.Plain := by
  induction added generalizing c with
  | nil => exact .pure
  | cons y ys ih =>
    refine (bindTerms_reports y.1.span (by simp) y.1.default).bind fun _ => ?_
    exact Reports.lookup.bind fun _ => ih

/-! ## Instances -/

/-- The reason why names alone are bound nowhere on the root is fatal. -/
theorem isFatal_of_assignmentScope {enclosing : Option ReactorId} {inst : String} {x : Assignment}
    {fault : ParameterFault} (h : assignmentScope enclosing inst x = .error fault) :
    fault.isFatal = true := by
  cases enclosing with
  | none =>
    cases h
    rfl
  | some r => cases h

theorem bindAssignments_reports (r : ReactorId) (enclosing : Option ReactorId) (inst : String)
    (xs : List Assignment) :
    (bindAssignments c r enclosing inst xs).Reports LoadFault.Plain := by
  induction xs with
  | nil => exact .pure
  | cons x xs ih =>
    refine (bindName_reports x.span r x.target).bind fun o => ?_
    cases o with
    | none => exact ih
    | some target =>
      have hscope : ∀ fault, assignmentScope enclosing inst x = .error fault →
          fault.isFatal = true := fun _ => isFatal_of_assignmentScope
      exact (bindTerms_reports x.span hscope x.terms).bind fun _ => ih.bind fun _ => .pure

mutual

theorem place_reports (parent : NodeId) (a : Assembly) :
    (i : Instance) → (place c parent a i).Reports LoadFault.Plain
  | ⟨name, reactor, assignments, children, span⟩ => by
    rw [place]
    refine Reports.lookup.bind fun outer => Reports.lookup.bind fun o => ?_
    cases o with
    | some first => exact (Reports.report ⟨rfl, rfl⟩).bind fun _ => .pure
    | none =>
      refine (findReactor_reports reactor span).bind fun o => ?_
      cases o with
      | none => exact .pure
      | some d =>
        refine (bindAssignments_reports d.id (some outer.reactor) name assignments).bind fun _ => ?_
        exact Reports.lookup.bind fun placed => placeAll_reports a.nextNode placed children

theorem placeAll_reports (parent : NodeId) (a : Assembly) :
    (is : List Instance) → (placeAll c parent a is).Reports LoadFault.Plain
  | [] => .pure
  | i :: is => (place_reports parent a i).bind fun a => placeAll_reports parent a is

end

theorem placeMain_reports (main : Instance) : (placeMain c main).Reports LoadFault.Plain := by
  refine (findReactor_reports main.reactor main.span).bind fun o => ?_
  cases o with
  | none => exact .pure
  | some d =>
    refine (bindAssignments_reports d.id none main.name main.assignments).bind fun _ => ?_
    exact placeAll_reports _ _ main.children

/-! ## Models -/

theorem checkOptions_reports (o : Options) : (checkOptions o).Reports LoadFault.Plain := by
  unfold checkOptions
  split
  · exact .report ⟨rfl, rfl⟩
  · exact .pure

/-- Every fault of a model is an error. -/
theorem bindAll_reports (m : Model) :
    (bindAll m).Reports fun f => f.toDiagnostic.isError = true := by
  have hplain : ∀ f : LoadFault, f.Plain → f.toDiagnostic.isError = true := fun _ h => h.error
  unfold bindAll
  refine ((checkOptions_reports m.options).mono hplain).bind fun _ => ?_
  refine Reports.bind ?_ fun c => ((placeMain_reports m.main).mono hplain).bind fun _ => .pure
  refine ((declareAll_reports m.reactors).mono hplain).bind fun out => ?_
  refine ((bindAllSupers_reports out.2).mono hplain).bind fun c => ?_
  refine ((reportCycles_reports out.2).mono fun _ => LoadFault.isError_of_isCircle).bind fun _ => ?_
  refine ((addAllParameters_reports out.2).mono hplain).bind fun out => ?_
  exact (bindDefaults_reports out.2).mono hplain

end Model

end Reactors
