import Reactors.Catalog.Lineage

/-! # Circular inheritance

    A reactor is on a cycle if it extends itself, directly or by way of others.  The search for a
    cycle goes from the reactor along the superclasses, depth first, and leaves out what it has
    seen, for what did not lead back once does not lead back later.
-/

namespace Reactors.Catalog

/-- What a search for a cycle has found. -/
structure CycleSearch where
  /-- The reactors it has gone to. -/
  seen : List ReactorId
  /-- The way back to the start, without the start itself, if there is one. -/
  path : Option (List ReactorId)

/-- Searches from `current` for a way back to `start`. -/
def searchCycle (c : Catalog) (start : ReactorId) : (fuel : Nat) → (seen : List ReactorId) →
    (current : ReactorId) → CycleSearch
  | 0, seen, _ => ⟨seen, none⟩
  | fuel + 1, seen, current =>
    (c.supers current).foldl (fun s super =>
      match s.path with
      | some _ => s
      | none =>
        if super = start then ⟨s.seen, some []⟩
        else if super ∈ s.seen then s
        else
          let t := searchCycle c start fuel (super :: s.seen) super
          ⟨t.seen, t.path.map (super :: ·)⟩) ⟨seen, none⟩

/-- A cycle through a reactor, from the reactor on, each extending the next and the last one the
    first; `none` inside if there is none.  All reactors the search goes to are looked up. -/
def cycle? (c : Catalog) (r : ReactorId) : Lookup (Option (List ReactorId)) := do
  let s := c.searchCycle r (c.reactors.size + 1) [] r
  let _ ← (r :: s.seen).mapM c.reactor?
  return s.path.map (r :: ·)

end Reactors.Catalog
