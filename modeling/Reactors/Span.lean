/-! # Source spans

    A span is a range of byte offsets in the text a program was read from.  Diagnostics carry one;
    a program that was built without a text has the empty span at offset zero everywhere.
-/

namespace Reactors

/-- A range of byte offsets. -/
structure Span where
  /-- The offset at which the range starts. -/
  start : Nat
  /-- The offset behind the range. -/
  stop : Nat
  deriving DecidableEq

namespace Span

/-- The span of what stands in no text. -/
def nowhere : Span := ⟨0, 0⟩

instance : Inhabited Span := ⟨nowhere⟩

/-- The two offsets with two points between them. -/
def text (s : Span) : String := toString s.start ++ ".." ++ toString s.stop

end Span

end Reactors
