import Reactors.Command.Run
import Reactors.Disk
import Reactors.Proofs.Compilation
import Reactors.Proofs.Listing

/-! # What the command exits with

    A run that reads the text of a model and can write its product exits with 0 if the product can
    be made, and with 1 otherwise, having written nothing.  Whether a product can be made depends on
    the text alone: the tree can if the model is accepted, the module and the values of all instances
    if validation finds no error besides, and the provenance always can.
-/

namespace Reactors

open Diagnostic (hasErrors)

namespace Program

/-- The text is the model of a program. -/
def Loads (source : String) : Prop := ∃ p, load source = some (.ok p)

/-- The text is the model of a program, and validation finds no error in it. -/
def Validates (source : String) : Prop :=
  ∃ p vs, load source = some (.ok p) ∧ p.validate? = some vs ∧ hasErrors vs = false

end Program

namespace Command

open Compilation (exists_goes closed_of_load hasError_refused hasError_emitted)
open Program (Loads Validates)

/-! ## Making a product -/

/-- A product can be made from a text. -/
def Product.CanBeMade (source : String) : Product → Prop
  | python | overrides => Validates source
  | tree => Loads source
  | buildInfo => True

section make
variable {source : String} {i : Invocation} {c : Compilation}

/-- The stage that a product takes. -/
def Product.stage : Product → Stage
  | python => .emit
  | overrides => .validate
  | tree | buildInfo => .load

/-- Nothing is made of a compilation with an error. -/
theorem make?_of_error (hi : i.product ≠ .buildInfo)
    (hc : Compilation.run? source i.product.stage i.patch = some c) (h : c.hasError = true) :
    make? i source = some ⟨c.diagnostics, none⟩ := by
  unfold make?
  cases hproduct : i.product with
  | buildInfo => exact absurd hproduct hi
  | _ =>
    rw [hproduct] at hc
    simp only [Product.stage] at hc
    simp [hc, h, resultOf]

theorem make?_of_module (hi : i.product = .python)
    (hc : Compilation.run? source .emit i.patch = some c) (h : c.hasError = false) :
    ∃ text, make? i source = some ⟨c.diagnostics, some text⟩ :=
  ⟨c.generated.getD "", by simp [make?, hi, hc, resultOf, h]⟩

theorem make?_of_tree (hi : i.product = .tree)
    (hc : Compilation.run? source .load i.patch = some c) (h : c.hasError = false) {p : Program}
    (hp : c.program = some p) {text : String} (htext : p.tree? = some text) :
    make? i source = some ⟨c.diagnostics, some text⟩ := by
  simp [make?, hi, hc, resultOf, h, hp, htext]

theorem make?_of_overrides (hi : i.product = .overrides)
    (hc : Compilation.run? source .validate i.patch = some c) (h : c.hasError = false)
    {p : Program} (hp : c.program = some p) {json : String}
    (hjson : p.overridesJson.run = some (json, [])) :
    make? i source = some ⟨c.diagnostics, some (json ++ "\n")⟩ := by
  simp [make?, hi, hc, h, hp, overridesResult?, hjson, hasErrors]

/-- A refused model is the model of no program. -/
theorem not_loads {faults : List LoadFault} (h : Program.load source = some (.error faults)) :
    ¬ Loads source := by
  intro ⟨p, hp⟩
  rw [h] at hp
  cases hp

theorem not_validates {p : Program} {vs : List Diagnostic}
    (h : Program.load source = some (.ok p)) (hvs : p.validate? = some vs)
    (herrors : hasErrors vs = true) : ¬ Validates source := by
  intro ⟨p', vs', hp', hvs', hno⟩
  rw [h] at hp'
  cases hp'
  rw [hvs] at hvs'
  cases hvs'
  rw [herrors] at hno
  cases hno

theorem not_canBeMade {faults : List LoadFault} (h : Program.load source = some (.error faults))
    {k : Product} (hk : k ≠ .buildInfo) : ¬ k.CanBeMade source := by
  have hloads := not_loads h
  cases k with
  | buildInfo => exact absurd rfl hk
  | tree => exact hloads
  | _ => exact fun ⟨p, _, hp, _⟩ => hloads ⟨p, hp⟩

/-- A run has a result, with a text exactly if the product can be made. -/
theorem exists_result (i : Invocation) (source : String) :
    ∃ ds text, make? i source = some ⟨ds, text⟩ ∧
      (text ≠ none ↔ i.product.CanBeMade source) := by
  by_cases hinfo : i.product = .buildInfo
  · refine ⟨[], some (Provenance.ofSource source).json, by simp [make?, hinfo], ?_⟩
    rw [hinfo]
    exact iff_of_true (by simp) trivial
  obtain ⟨c, hc, hgoes⟩ := exists_goes source i.product.stage i.patch
  -- how far the compilation went tells what it was for
  generalize hstage : i.product.stage = stage at hgoes hc
  cases hgoes with
  | refused load any errors =>
    have hmake := make?_of_error hinfo (hstage ▸ hc) (hasError_refused any errors source)
    exact ⟨_, _, hmake, iff_of_false (by simp) (not_canBeMade load hinfo)⟩
  | invalid load further validate errors =>
    have hmake := make?_of_error hinfo (hstage ▸ hc) errors
    have hnot := not_validates load validate errors
    refine ⟨_, _, hmake, iff_of_false (by simp) ?_⟩
    cases hproduct : i.product with
    | python => exact hnot
    | overrides => exact hnot
    | tree => exact absurd (hstage.symm.trans (congrArg Product.stage hproduct)) further
    | buildInfo => exact absurd hproduct hinfo
  | @loaded p load =>
    have hi : i.product = .tree := by cases h : i.product <;> simp_all [Product.stage]
    obtain ⟨text, htext⟩ :=
      Program.exists_tree ((closed_of_load load).withOptions (p.options.patch i.patch))
    refine ⟨_, _, make?_of_tree hi hc rfl rfl htext, ?_⟩
    rw [hi]
    exact iff_of_true (by simp) ⟨p, load⟩
  | @validated p vs load validate errors =>
    have hi : i.product = .overrides := by cases h : i.product <;> simp_all [Product.stage]
    obtain ⟨json, hjson⟩ := Program.overridesJson_of_valid
      ((closed_of_load load).withOptions (p.options.patch i.patch))
      ((Program.validate?_withOptions _).trans validate) errors
    refine ⟨_, _, make?_of_overrides hi hc errors rfl hjson, ?_⟩
    rw [hi]
    exact iff_of_true (by simp) ⟨p, vs, load, validate, errors⟩
  | @emitted p vs load validate errors =>
    have hi : i.product = .python := by cases h : i.product <;> simp_all [Product.stage]
    obtain ⟨text, hmake⟩ := make?_of_module hi hc ((hasError_emitted _ _ _).trans errors)
    refine ⟨_, _, hmake, ?_⟩
    rw [hi]
    exact iff_of_true (by simp) ⟨p, vs, load, validate, errors⟩

end make

/-! ## Running on a disk -/

/-- What the command leaves behind when it is run with its arguments on a disk. -/
def runOn (d : Disk) (args : List String) : Outcome × Disk :=
  (respond args : StateM Disk Outcome).run d

/-- An outcome of a run that wrote nothing. -/
structure Untouched (d : Disk) (out : Outcome × Disk) : Prop where
  stdout : out.1.stdout = ""
  disk : out.2 = d

section run
variable {d : Disk} {args : List String} {i : Invocation} {source : String}

theorem runOn_of_none (hargs : parse args = .run i) (hread : d.readText i.source = .ok source)
    {ds : List Diagnostic} (hmake : make? i source = some ⟨ds, none⟩) :
    runOn d args = (⟨1, "", report ds⟩, d) := by
  unfold runOn respond
  rw [hargs]
  simp [execute, FileSystem.readText, hread, hmake]
  rfl

theorem runOn_of_some (hargs : parse args = .run i) (hread : d.readText i.source = .ok source)
    (hwrite : ∀ path, i.output = some path → ∀ text, ∃ d', d.writeText path text = .ok d')
    {ds : List Diagnostic} {text : String} (hmake : make? i source = some ⟨ds, some text⟩) :
    (runOn d args).1.code = 0 := by
  unfold runOn respond
  rw [hargs]
  cases hout : i.output with
  | none =>
    simp [execute, FileSystem.readText, hread, hmake, deliver, hout]
    rfl
  | some path =>
    obtain ⟨d', hd'⟩ := hwrite path hout text
    simp [execute, FileSystem.readText, FileSystem.writeText, hread, hmake, deliver, hout, hd']
    rfl

/-- A run exits with 0 if its product can be made, and otherwise with 1, having written nothing. -/
theorem runOn_spec (hargs : parse args = .run i) (hread : d.readText i.source = .ok source)
    (hwrite : ∀ path, i.output = some path → ∀ text, ∃ d', d.writeText path text = .ok d') :
    (i.product.CanBeMade source ∧ (runOn d args).1.code = 0) ∨
      (¬ i.product.CanBeMade source ∧ (runOn d args).1.code = 1 ∧ Untouched d (runOn d args)) := by
  obtain ⟨ds, text, hmake, hiff⟩ := exists_result i source
  cases text with
  | none =>
    have hrun := runOn_of_none hargs hread hmake
    refine .inr ⟨fun h => hiff.mpr h rfl, by rw [hrun], ?_⟩
    rw [hrun]
    exact ⟨rfl, rfl⟩
  | some text => exact .inl ⟨hiff.mp (by simp), runOn_of_some hargs hread hwrite hmake⟩

end run

/-- The exit code of a run on a disk. -/
def exitCode (d : Disk) (args : List String) : Nat := (runOn d args).1.code

/-- Runs over one text, each for another product and with settings of its own, agree on whether the
    model is valid.  One that fails leaves nothing behind but its messages. -/
theorem products_agree {d : Disk} {source : String} {args : Product → List String}
    {i : Product → Invocation} (hargs : ∀ k, parse (args k) = .run (i k))
    (hproduct : ∀ k, (i k).product = k) (hread : ∀ k, d.readText (i k).source = .ok source)
    (hwrite : ∀ k path, (i k).output = some path →
      ∀ text, ∃ d', d.writeText path text = .ok d') :
    exitCode d (args .python) = exitCode d (args .overrides) ∧
      (exitCode d (args .python) = 0 ↔ Validates source) ∧
      (¬ Validates source → exitCode d (args .python) = 1) ∧
      (exitCode d (args .tree) = 0 ↔ Loads source) ∧
      (¬ Loads source → exitCode d (args .tree) = 1) ∧
      (exitCode d (args .python) = 0 → exitCode d (args .tree) = 0) ∧
      exitCode d (args .buildInfo) = 0 ∧
      ∀ k, exitCode d (args k) ≠ 0 → Untouched d (runOn d (args k)) := by
  have hspec : ∀ k : Product, (k.CanBeMade source ∧ exitCode d (args k) = 0) ∨
      (¬ k.CanBeMade source ∧ exitCode d (args k) = 1 ∧ Untouched d (runOn d (args k))) := by
    intro k
    have h := runOn_spec (hargs k) (hread k) (hwrite k)
    rwa [hproduct k] at h
  have hiff : ∀ k : Product, exitCode d (args k) = 0 ↔ k.CanBeMade source := by
    intro k
    rcases hspec k with ⟨hcan, hcode⟩ | ⟨hnot, hcode, _⟩
    · exact iff_of_true hcode hcan
    · exact iff_of_false (by simp [hcode]) hnot
  have hfail : ∀ k : Product, ¬ k.CanBeMade source →
      exitCode d (args k) = 1 ∧ Untouched d (runOn d (args k)) :=
    fun k hnot => ((hspec k).resolve_left fun h => hnot h.1).2
  refine ⟨?_, hiff .python, fun h => (hfail .python h).1, hiff .tree,
    fun h => (hfail .tree h).1, ?_, (hiff .buildInfo).mpr trivial, ?_⟩
  · -- the two can be made under the same condition
    by_cases h : Validates source
    · rw [(hiff .python).mpr h, (hiff .overrides).mpr h]
    · rw [(hfail .python h).1, (hfail .overrides h).1]
  · intro h
    obtain ⟨p, _, hp, _⟩ := (hiff .python).mp h
    exact (hiff .tree).mpr ⟨p, hp⟩
  · exact fun k h => (hfail k fun hcan => h ((hiff k).mpr hcan)).2

/-! ### A model with an empty default -/

/-- A model that is accepted, but has a parameter without a value. -/
def hollowText : String :=
  "\x7b\"reactors\":[\x7b\"name\":\"A\",\"parameters\":[\x7b\"name\":\"x\",\"default\":[]\x7d]\x7d]," ++
    "\"main\":\x7b\"name\":\"main\",\"reactor\":\"A\"\x7d\x7d"

/-- A disk with nothing on it but this model. -/
def hollowDisk : Disk := Disk.blank.put ["m.json"] (.text hollowText)

/-- Arguments that ask for each product of it, with different settings. -/
def hollowArguments : Product → List String
  | .python => ["m.json", "--indent=2", "-o", "m.py"]
  | .overrides => ["--emit", "overrides", "--override-style", "bulk-merge", "m.json"]
  | .tree => ["--emit=tree", "m.json"]
  | .buildInfo => ["m.json", "--no-header", "--emit", "build-info"]

/-- What they ask for. -/
def hollowInvocation : Product → Invocation
  | .python => ⟨"m.json", some "m.py", .python, { indent := some 2 }, false⟩
  | .overrides => ⟨"m.json", none, .overrides, { style := some .bulkMerge }, false⟩
  | .tree => ⟨"m.json", none, .tree, {}, false⟩
  | .buildInfo => ⟨"m.json", none, .buildInfo, { provenanceHeader := some false }, false⟩

/-- What validation of the model finds. -/
def hollowReports : Option (List Diagnostic) :=
  match Program.load hollowText with
  | some (.ok p) => p.validate?
  | _ => none

theorem loads_hollowText : Loads hollowText ∧ ¬ Validates hollowText := by
  have hreports : hollowReports.map hasErrors = some true := by decide +kernel
  unfold hollowReports at hreports
  constructor
  · split at hreports
    · next p hp => exact ⟨p, hp⟩
    · cases hreports
  · intro ⟨p, vs, hp, hvs, hno⟩
    rw [hp] at hreports
    simp [hvs, hno] at hreports

theorem products_of_hollowText :
    (∀ k, parse (hollowArguments k) = .run (hollowInvocation k)) ∧
      exitCode hollowDisk (hollowArguments .python) = 1 ∧
      exitCode hollowDisk (hollowArguments .overrides) = 1 ∧
      exitCode hollowDisk (hollowArguments .tree) = 0 ∧
      exitCode hollowDisk (hollowArguments .buildInfo) = 0 ∧
      Untouched hollowDisk (runOn hollowDisk (hollowArguments .python)) := by
  have hargs : ∀ k, parse (hollowArguments k) = .run (hollowInvocation k) := by
    intro k
    cases k <;> rfl
  have hread : ∀ k, hollowDisk.readText (hollowInvocation k).source = .ok hollowText := by
    intro k
    cases k <;> rfl
  have hwrite : ∀ k path, (hollowInvocation k).output = some path →
      ∀ text, ∃ d', hollowDisk.writeText path text = .ok d' := by
    intro k path hpath text
    cases k with
    | python =>
      cases hpath
      exact ⟨hollowDisk.put ["m.py"] (.text text), rfl⟩
    | _ => cases hpath
  obtain ⟨hloads, hnot⟩ := loads_hollowText
  obtain ⟨hsame, _, hpython, htree, _, _, hinfo, hfail⟩ :=
    products_agree hargs (fun k => by cases k <;> rfl) hread hwrite
  refine ⟨hargs, hpython hnot, hsame ▸ hpython hnot, htree.mpr hloads, hinfo, hfail .python ?_⟩
  simp [hpython hnot]

end Command

end Reactors
