import Reactors.Text.Blank
import Reactors.Text.Quoted

/-! # Emission options

    What may be chosen about the generated code.  A model brings options of its own, fields left out
    taking their defaults; a `Patch` from the command line goes over them.
-/

namespace Reactors

/-- How the values that differ from an instance's class defaults reach the instance. -/
inductive Options.Style where
  /-- The constructor takes no arguments, and each such field is assigned after it. -/
  | targeted
  /-- The constructor takes all values as keywords and stores them over the defaults. -/
  | bulkMerge
  deriving DecidableEq

/-- The choices about the generated code. -/
structure Options where
  /-- Spaces a level of indentation. -/
  indent : Nat
  /-- What stands between the terms of a tuple. -/
  separator : String
  /-- How overrides reach instances. -/
  style : Options.Style
  /-- Whether property bodies end in a comment that quiets the linter. -/
  lintMarkers : Bool
  /-- Whether a module starts with comments that say what it was made from. -/
  provenanceHeader : Bool
  deriving DecidableEq

namespace Options

/-- Four spaces, a comma and a space, targeted overrides, markers and header. -/
def standard : Options :=
  { indent := 4
    separator := ", "
    style := .targeted
    lintMarkers := true
    provenanceHeader := true }

instance : Inhabited Options := ⟨standard⟩

/-- Whether the separator separates: a single comma, with blanks around it. -/
def separates (o : Options) : Bool := Text.trim o.separator.toList == [',']

/-- What is wrong with the options, if the separator does not separate. -/
def complaint? (o : Options) : Option String :=
  if o.separates then none
  else some ("option `separator` must be a comma with optional spaces, got " ++
    Text.quoted o.separator)

/-- The spaces of a number of levels. -/
def margin (o : Options) (level : Nat) : String :=
  String.ofList (List.replicate (o.indent * level) ' ')

/-! ## Patches -/

/-- Options given apart, each of which may be left open. -/
structure Patch where
  indent : Option Nat := none
  style : Option Style := none
  lintMarkers : Option Bool := none
  provenanceHeader : Option Bool := none
  deriving DecidableEq

/-- The options with the given parts of a patch in place of their own. -/
def patch (o : Options) (p : Patch) : Options :=
  { o with
    indent := p.indent.getD o.indent
    style := p.style.getD o.style
    lintMarkers := p.lintMarkers.getD o.lintMarkers
    provenanceHeader := p.provenanceHeader.getD o.provenanceHeader }

end Options

end Reactors
