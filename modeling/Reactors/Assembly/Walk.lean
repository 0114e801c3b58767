import Reactors.Assembly.Basic

/-! # Walks in the tree of instances

    Upwards from a node to its root, and downwards through the nodes below it.  In a tree that was
    built step by step a parent has a smaller identity than its children, so both walks end.
-/

namespace Reactors.Assembly

/-! ## Upwards -/

/-- The node a number of steps up, if it is not above the root. -/
def ancestor? (a : Assembly) (i : NodeId) : (steps : Nat) → Lookup (Option NodeId)
  | 0 => some (some i)
  | steps + 1 =>
    match a.node? i with
    | none => none
    | some n =>
      match n.parent with
      | none => some none
      | some p => a.ancestor? p steps

/-- The nodes from a node up to its root.  The walk does not follow a parent that is not older than
    its child. -/
def lineUp? (a : Assembly) (i : NodeId) : Lookup (List Node) :=
  match a.node? i with
  | none => none
  | some n =>
    match n.parent with
    | none => some [n]
    | some p =>
      if p.index < i.index then (a.lineUp? p).map (n :: ·) else some [n]
termination_by i.index

/-- How many steps the root is away. -/
def depth? (a : Assembly) (i : NodeId) : Lookup Nat := do
  let ns ← a.lineUp? i
  return ns.length - 1

/-- The names from the root down to a node. -/
def names? (a : Assembly) (i : NodeId) : Lookup (List String) := do
  let ns ← a.lineUp? i
  return (ns.map (·.name)).reverse

/-! ## Downwards -/

/-- Visits the nodes on a stack one after the other, each followed by everything below it.  There
    are no more than `fuel` visits. -/
def visit? (a : Assembly) : (fuel : Nat) → List NodeId → Lookup (List Node)
  | _, [] => some []
  | 0, _ :: _ => none
  | fuel + 1, i :: stack => do
    let n ← a.node? i
    -- the children go before whatever was waiting
    let ns ← a.visit? fuel (n.children ++ stack)
    return n :: ns

/-- A node and everything below it, every node before its children and these in order.  No tree has
    more visits than nodes. -/
def preorder? (a : Assembly) (i : NodeId) : Lookup (List Node) :=
  a.visit? a.nodes.size [i]

end Reactors.Assembly
