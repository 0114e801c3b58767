import Reactors.Json.Record
import Reactors.Json.Variant
import Reactors.Model.Basic

/-! # Reading models

    The document format of models and of options: which fields the records have, in which order,
    which of them may be left out, and by which tags values are told apart.
-/

namespace Reactors

open Json (Decoder FieldOf Case)

/-! ## Options -/

namespace Options

/-- The tags of the override styles. -/
def styleTags : List (String × Style) := [("targeted", .targeted), ("bulk-merge", .bulkMerge)]

/-- The fields of options, all of which have defaults. -/
def fields : List (FieldOf Options) :=
  [FieldOf.make "indent" false (Decoder.natural "usize") fun v o => { o with indent := v },
   FieldOf.make "separator" false Decoder.string fun v o => { o with separator := v },
   FieldOf.make "override_style" false (Json.Variant.choice styleTags) fun v o =>
     { o with style := v },
   FieldOf.make "pylint_markers" false Decoder.bool fun v o => { o with lintMarkers := v },
   FieldOf.make "provenance_header" false Decoder.bool fun v o => { o with provenanceHeader := v }]

/-- The decoder of options. -/
def decoder : Decoder Options := Json.Record.decoder "struct EmitOptions" fields standard

/-- Reads options from a text. -/
def read (text : String) : Except Json.ReadError Options := Json.decode decoder text

end Options

/-! ## Models -/

namespace Model

/-- A span: an array of two offsets. -/
def span : Decoder Span := fun r =>
  (fun p => ⟨p.1, p.2⟩) <$> Decoder.pair (Decoder.natural "usize") r

/-- The fields of a time value. -/
def durationFields : List (FieldOf Duration) :=
  [FieldOf.make "value" true (Decoder.natural "u64") fun v d => { d with value := v },
   FieldOf.make "unit" false (Decoder.option Decoder.string) fun v d => { d with unit := v }]

/-- The decoder of a time value. -/
def duration : Decoder Duration := Json.Record.decoder "struct TimeSpec" durationFields ⟨0, none⟩

/-- A qualified reference: an object in which `name` and `of` stand once each and are strings.
    Other members do not matter. -/
def qualified? (ms : Json.Members) : Option Reference :=
  match ms.valuesOf "name", ms.valuesOf "of" with
  | [.string name], [.string reactor] => some (.qualified name reactor)
  | _, _ => none

/-- The decoder of a reference.  As it has several forms, the whole of it has to be undamaged before
    any is tried. -/
def reference : Decoder Reference := fun r =>
  if r.isIntact then
    match r with
    | .string name => .ok (.plain name)
    | .object ms =>
      match qualified? ms with
      | some ref => .ok ref
      | none => .error (.noForm "ParamRefSpec")
    | _ => .error (.noForm "ParamRefSpec")
  else .error .malformed

/-- The decoder of a term. -/
def term : Decoder Term :=
  Json.Variant.decoder
    [⟨"int", fun r => .int <$> Decoder.integer r⟩,
     ⟨"float", fun r => .float <$> Decoder.float r⟩,
     ⟨"bool", fun r => .bool <$> Decoder.bool r⟩,
     ⟨"string", fun r => .string <$> Decoder.string r⟩,
     ⟨"code", fun r => .code <$> Decoder.string r⟩,
     ⟨"time", fun r => .time <$> duration r⟩,
     ⟨"param", fun r => .param <$> reference r⟩]

/-- The fields of a parameter. -/
def parameterFields : List (FieldOf Parameter) :=
  [FieldOf.make "name" true Decoder.string fun v p => { p with name := v },
   FieldOf.make "type" false (Decoder.option Decoder.string) fun v p => { p with typeText := v },
   FieldOf.make "default" true (Decoder.list term) fun v p => { p with default := v },
   FieldOf.make "span" false span fun v p => { p with span := v }]

/-- The decoder of a parameter. -/
def parameter : Decoder Parameter :=
  Json.Record.decoder "struct ParamSpec" parameterFields ⟨"", none, [], .nowhere⟩

/-- The fields of a reactor. -/
def reactorFields : List (FieldOf Reactor) :=
  [FieldOf.make "name" true Decoder.string fun v r => { r with name := v },
   FieldOf.make "extends" false (Decoder.list Decoder.string) fun v r => { r with supers := v },
   FieldOf.make "parameters" false (Decoder.list parameter) fun v r => { r with parameters := v },
   FieldOf.make "span" false span fun v r => { r with span := v }]

/-- The decoder of a reactor. -/
def reactor : Decoder Reactor :=
  Json.Record.decoder "struct ReactorSpec" reactorFields ⟨"", [], [], .nowhere⟩

/-- The fields of an assignment. -/
def assignmentFields : List (FieldOf Assignment) :=
  [FieldOf.make "lhs" true Decoder.string fun v a => { a with target := v },
   FieldOf.make "rhs" true (Decoder.list term) fun v a => { a with terms := v },
   FieldOf.make "span" false span fun v a => { a with span := v }]

/-- The decoder of an assignment. -/
def assignment : Decoder Assignment :=
  Json.Record.decoder "struct AssignmentSpec" assignmentFields ⟨"", [], .nowhere⟩

/-- The fields of an instance, given the decoder of the instances inside it. -/
def instanceFields (inner : Decoder Instance) : List (FieldOf Instance) :=
  [FieldOf.make "name" true Decoder.string fun v i => { i with name := v },
   FieldOf.make "reactor" true Decoder.string fun v i => { i with reactor := v },
   FieldOf.make "assignments" false (Decoder.list assignment) fun v i =>
     { i with assignments := v },
   FieldOf.make "children" false (Decoder.list inner) fun v i => { i with children := v },
   FieldOf.make "span" false span fun v i => { i with span := v }]

/-- The decoder of an instance with instances nested at most `depth` deep; deeper ones are
    malformed, like brackets nested too deep. -/
def instanceWithin : (depth : Nat) → Decoder Instance
  | 0 => fun _ => .error .malformed
  | depth + 1 => fun r =>
    Json.Record.decoder "struct InstanceSpec" (instanceFields (instanceWithin depth))
      ⟨"", "", [], [], .nowhere⟩ r

/-- The fields of a model. -/
def fields : List (FieldOf Model) :=
  [FieldOf.make "options" false Options.decoder fun v m => { m with options := v },
   FieldOf.make "reactors" true (Decoder.list reactor) fun v m => { m with reactors := v },
   FieldOf.make "main" true (instanceWithin (Json.maxDepth + 1)) fun v m => { m with main := v }]

/-- The decoder of a model. -/
def decoder : Decoder Model :=
  Json.Record.decoder "struct ProgramSpec" fields
    ⟨.standard, [], ⟨"", "", [], [], .nowhere⟩⟩

/-- Reads a model from a text. -/
def read (text : String) : Except Json.ReadError Model := Json.decode decoder text

end Model

end Reactors
