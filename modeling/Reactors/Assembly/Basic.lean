import Reactors.Span
import Reactors.Value

/-! # The tree of instances

    An assembly holds the instances of reactors as nodes, in order of creation.  A node knows its
    parent and lists its children; a node without a parent is a root.  What an instance sets its
    parameters to is written where it is placed, as assignments.
-/

namespace Reactors

/-- Sets a parameter of an instance. -/
structure Assignment where
  /-- The parameter that is set. -/
  target : ParamId
  /-- What it is set to. -/
  values : List Value
  /-- Where this is written. -/
  span : Span
  deriving DecidableEq

/-- An instance of a reactor at its place. -/
structure Assembly.Node where
  /-- Its identity. -/
  id : NodeId
  /-- Its name. -/
  name : String
  /-- The reactor it is an instance of. -/
  reactor : ReactorId
  /-- The node that contains it; a root has none. -/
  parent : Option NodeId
  /-- The nodes it contains, in order. -/
  children : List NodeId
  /-- Its assignments in the order written. -/
  assignments : List Assignment
  /-- Where it is placed. -/
  span : Span
  deriving DecidableEq

/-- The nodes of a program. -/
structure Assembly where
  nodes : Array Assembly.Node := #[]
  deriving DecidableEq

/-- A parameter of one instance. -/
structure Slot where
  /-- The parameter. -/
  param : ParamId
  /-- The instance that has it. -/
  host : NodeId
  deriving DecidableEq

namespace Assembly

instance : Inhabited Assembly := ⟨{}⟩

/-! ## Finding nodes -/

/-- The node with an identity. -/
def node? (a : Assembly) (i : NodeId) : Lookup Node := a.nodes[i.index]?

/-- The identity of the next node. -/
def nextNode (a : Assembly) : NodeId := ⟨a.nodes.size⟩

/-- The first node without a parent. -/
def root? (a : Assembly) : Option NodeId :=
  (a.nodes.toList.find? fun n => n.parent.isNone).map (·.id)

/-- The last of a list of assignments that sets a parameter. -/
def lastSetting? (p : ParamId) (as : List Assignment) : Option Assignment :=
  as.reverse.find? fun x => x.target = p

/-- The assignment that counts for a slot: the last one of the host that sets the parameter. -/
def settingOf? (a : Assembly) (s : Slot) : Lookup (Option Assignment) := do
  let n ← a.node? s.host
  return lastSetting? s.param n.assignments

/-! ## Adding nodes -/

/-- Changes the node with an identity. -/
def modifyNode? (a : Assembly) (i : NodeId) (f : Node → Node) : Lookup Assembly :=
  if i.index < a.nodes.size then some { nodes := a.nodes.modify i.index f } else none

/-- Adds a node without children; its identity is `nextNode`. -/
def push (a : Assembly) (name : String) (reactor : ReactorId) (parent : Option NodeId)
    (assignments : List Assignment) (span : Span) : Assembly :=
  { nodes := a.nodes.push
      { id := a.nextNode, name, reactor, parent, children := [], assignments, span } }

/-- Adds a root without assignments. -/
def addRoot (a : Assembly) (name : String) (reactor : ReactorId) (span : Span) : Assembly :=
  a.push name reactor none [] span

/-- Adds a node as the last child of another. -/
def addChild? (a : Assembly) (parent : NodeId) (name : String) (reactor : ReactorId)
    (assignments : List Assignment) (span : Span) : Lookup Assembly :=
  (a.push name reactor (some parent) assignments span).modifyNode? parent fun n =>
    { n with children := n.children ++ [a.nextNode] }

/-- Adds an assignment behind those a node has. -/
def assign? (a : Assembly) (i : NodeId) (x : Assignment) : Lookup Assembly :=
  a.modifyNode? i fun n => { n with assignments := n.assignments ++ [x] }

end Assembly

end Reactors
