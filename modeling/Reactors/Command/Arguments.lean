import Reactors.Options

/-! # Command-line arguments

    The command takes the path of a model and options in any order.  An option with a value has it
    as the next argument or behind an equals sign, the short one also right behind its letter; a
    double dash makes all further arguments paths.

    Arguments are read from the left, and the first that is wrong, or that asks for the version or
    for help, settles the outcome.
-/

namespace Reactors.Command

/-! ## What may be asked for -/

/-- What the command can write. -/
inductive Product where
  /-- The generated module. -/
  | python
  /-- The values of all instances, as JSON. -/
  | overrides
  /-- The tree of instances. -/
  | tree
  /-- The provenance, as JSON. -/
  | buildInfo
  deriving DecidableEq

/-- A run of the command. -/
structure Invocation where
  /-- The path of the model. -/
  source : String
  /-- The path to write to instead of the standard output. -/
  output : Option String
  /-- What to write. -/
  product : Product
  /-- The options given over those of the model. -/
  patch : Options.Patch
  /-- Whether progress is to be logged. -/
  verbose : Bool
  deriving DecidableEq

/-- What a list of arguments asks for. -/
inductive Request where
  /-- The arguments make no sense. -/
  | usageError
  /-- The version. -/
  | version
  /-- Help. -/
  | help
  /-- A run. -/
  | run (invocation : Invocation)
  deriving DecidableEq

/-! ## Values -/

/-- A path is anything but empty. -/
def path? (s : String) : Option String := if s.isEmpty then none else some s

/-- What to write, by its name. -/
def product? : String → Option Product
  | "python" => some .python
  | "overrides" => some .overrides
  | "tree" => some .tree
  | "build-info" => some .buildInfo
  | _ => none

/-- An override style, by its name. -/
def style? : String → Option Options.Style
  | "targeted" => some .targeted
  | "bulk-merge" => some .bulkMerge
  | _ => none

/-- A natural number below `2^64`: digits, with an optional plus sign. -/
def natural? (s : String) : Option Nat :=
  let ds := match s.toList with
    | '+' :: ds => ds
    | ds => ds
  if ds.isEmpty || !ds.all Char.isDigit then none
  else
    let n := ds.foldl (fun n d => 10 * n + (d.toNat - '0'.toNat)) 0
    if n < Nat.pow 2 64 then some n else none

/-! ## Options -/

/-- The options of the command. -/
inductive Switch where
  | output
  | emit
  | overrideStyle
  | indent
  | noHeader
  | verbose
  | help
  | version
  deriving DecidableEq

namespace Switch

/-- Whether an option has a value. -/
def takesValue : Switch → Bool
  | output | emit | overrideStyle | indent => true
  | noHeader | verbose | help | version => false

/-- The option with a long name. -/
def ofLong? : String → Option Switch
  | "output" => some output
  | "emit" => some emit
  | "override-style" => some overrideStyle
  | "indent" => some indent
  | "no-header" => some noHeader
  | "verbose" => some verbose
  | "help" => some help
  | "version" => some version
  | _ => none

/-- The option with a letter. -/
def ofLetter? : Char → Option Switch
  | 'o' => some output
  | 'h' => some help
  | 'V' => some version
  | _ => none

end Switch

/-- What has been given so far. -/
structure Given where
  source : Option String := none
  output : Option String := none
  product : Option Product := none
  style : Option Options.Style := none
  indent : Option Nat := none
  noHeader : Bool := false
  verbose : Bool := false

/-- What comes of an argument: an early answer, or what has been given with it. -/
abbrev Parsing (α : Type) : Type := Except Request α

/-- Sets something that may be given once, if its text makes sense. -/
def setOnce {α : Type} (old : Option α) (new : Option α) (put : α → Given) : Parsing Given :=
  match old, new with
  | none, some a => .ok (put a)
  | _, _ => .error .usageError

/-- Takes up an option with its value. -/
def Given.setValue (g : Given) (s : Switch) (text : String) : Parsing Given :=
  match s with
  | .output => setOnce g.output (path? text) fun a => { g with output := some a }
  | .emit => setOnce g.product (product? text) fun a => { g with product := some a }
  | .overrideStyle => setOnce g.style (style? text) fun a => { g with style := some a }
  | .indent => setOnce g.indent (natural? text) fun a => { g with indent := some a }
  | _ => .error .usageError

/-- Takes up an option without a value. -/
def Given.setFlag (g : Given) (s : Switch) : Parsing Given :=
  match s with
  | .noHeader => if g.noHeader then .error .usageError else .ok { g with noHeader := true }
  | .verbose => if g.verbose then .error .usageError else .ok { g with verbose := true }
  | .help => .error .help
  | .version => .error .version
  | _ => .error .usageError

/-- Takes up the path of the model. -/
def Given.setSource (g : Given) (text : String) : Parsing Given :=
  setOnce g.source (path? text) fun a => { g with source := some a }

/-! ## Arguments -/

/-- Whether an argument is an option or the double dash; a single dash is neither. -/
def looksLikeOption (arg : String) : Bool :=
  match arg.toList with
  | '-' :: _ :: _ => true
  | _ => false

/-- What an option at the end of an argument needs of the arguments behind it. -/
inductive Need where
  /-- Nothing. -/
  | nothing
  /-- The value of an option. -/
  | value (s : Switch)

/-- Reads a long option, without its dashes. -/
def Given.long (g : Given) (body : List Char) : Parsing (Given × Need) := do
  let name := body.takeWhile (· ≠ '=')
  match Switch.ofLong? (String.ofList name) with
  | none => .error .usageError
  | some s =>
    match body.dropWhile (· ≠ '=') with
    | _ :: text =>
      if s.takesValue then return (← g.setValue s (String.ofList text), .nothing)
      else .error .usageError
    | [] =>
      if s.takesValue then return (g, .value s)
      else return (← g.setFlag s, .nothing)

/-- Reads a run of option letters; the first that has a value takes the rest of the argument, if
    there is a rest. -/
def Given.letters (g : Given) : List Char → Parsing (Given × Need)
  | [] => return (g, .nothing)
  | c :: cs => do
    match Switch.ofLetter? c with
    | none => .error .usageError
    | some s =>
      if s.takesValue then
        match cs with
        | [] => return (g, .value s)
        | '=' :: text => return (← g.setValue s (String.ofList text), .nothing)
        | text => return (← g.setValue s (String.ofList text), .nothing)
      else
        let g ← g.setFlag s
        g.letters cs

/-- Reads one argument that is not the value of an option and not the double dash. -/
def Given.argument (g : Given) (arg : String) : Parsing (Given × Need) :=
  match arg.toList with
  | '-' :: '-' :: body => g.long body
  | '-' :: c :: cs => g.letters (c :: cs)
  | _ => do return (← g.setSource arg, .nothing)

/-- Reads the arguments, beginning with the value of an option if one is needed. -/
def Given.arguments (g : Given) (need : Need) : List String → Parsing Given
  | [] =>
    match need with
    | .nothing => return g
    | .value _ => .error .usageError
  | arg :: args => do
    match need with
    | .value s =>
      if looksLikeOption arg then .error .usageError
      else
        let g ← g.setValue s arg
        g.arguments .nothing args
    | .nothing =>
      -- nothing behind a double dash is an option
      if arg = "--" then args.foldlM Given.setSource g
      else
        let (g, need) ← g.argument arg
        g.arguments need args

/-- The run that all arguments together ask for; a model has to be given. -/
def Given.request (g : Given) : Request :=
  match g.source with
  | none => .usageError
  | some source =>
    .run {
      source
      output := g.output
      product := g.product.getD .python
      patch :=
        { indent := g.indent
          style := g.style
          provenanceHeader := if g.noHeader then some false else none }
      verbose := g.verbose }

/-- What a list of arguments asks for. -/
def parse (args : List String) : Request :=
  match Given.arguments {} .nothing args with
  | .error request => request
  | .ok g => g.request

end Reactors.Command
