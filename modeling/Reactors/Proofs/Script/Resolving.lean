import Reactors.Script.Resolution

/-! # What resolving gives

    `Gives x r` says that resolving ends with `r`, a result or the first fault.  Every operation has
    one rule for a result and one for a fault.
-/

namespace Reactors.Script

variable {α β : Type}

/-- Resolving ends with a result or a fault. -/
def Gives (x : Resolving α) (r : Except ParameterFault α) : Prop := x.run = some r

namespace Gives

variable {x : Resolving α} {f : α → Resolving β} {a : α} {e : ParameterFault}
  {r : Except ParameterFault β}

theorem pure (a : α) : Gives (Pure.pure a) (.ok a) := rfl

theorem throw (e : ParameterFault) : Gives (MonadExcept.throw e : Resolving α) (.error e) := rfl

theorem lift {o : Lookup α} (h : o = some a) : Gives (o : Resolving α) (.ok a) := by
  subst h
  rfl

/-- What follows a result. -/
theorem bind (hx : Gives x (.ok a)) (hf : Gives (f a) r) : Gives (x >>= f) r := by
  unfold Gives at hx
  have hbind : (x >>= f).run = (f a).run := by
    rw [ExceptT.run_bind, hx]
    rfl
  exact hbind.trans hf

/-- Nothing follows a fault. -/
theorem bind_error (hx : Gives x (.error e)) : Gives (x >>= f) (.error e) := by
  unfold Gives at hx ⊢
  rw [ExceptT.run_bind, hx]
  rfl

/-- A list that is resolved in every element. -/
theorem mapM {f : α → Resolving β} {g : α → β} {xs : List α}
    (h : ∀ x ∈ xs, Gives (f x) (.ok (g x))) : Gives (xs.mapM f) (.ok (xs.map g)) := by
  induction xs with
  | nil => exact pure []
  | cons x xs ih =>
    rw [List.mapM_cons]
    exact (h x (by simp)).bind ((ih fun y hy => h y (by simp [hy])).bind (pure _))

/-- A list with elements that are faulty ends with the fault of the first of them. -/
theorem mapM_find {f : α → Resolving β} {bad : α → Prop} [DecidablePred bad]
    {fault : α → ParameterFault} {g : α → β} {xs : List α}
    (h : ∀ x ∈ xs, Gives (f x) (if bad x then .error (fault x) else .ok (g x))) :
    Gives (xs.mapM f) (match xs.find? fun x => bad x with
      | some x => .error (fault x)
      | none => .ok (xs.map g)) := by
  induction xs with
  | nil => exact pure []
  | cons x xs ih =>
    rw [List.mapM_cons, List.find?_cons]
    have hx := h x (by simp)
    by_cases hbad : bad x
    · rw [if_pos hbad] at hx
      simp only [hbad, decide_true]
      exact hx.bind_error
    · rw [if_neg hbad] at hx
      have hxs := ih fun y hy => h y (by simp [hy])
      simp only [hbad, decide_false]
      apply hx.bind
      cases hfind : xs.find? fun x => decide (bad x) with
      | some y =>
        rw [hfind] at hxs
        exact hxs.bind_error
      | none =>
        rw [hfind] at hxs
        exact hxs.bind (pure _)

end Gives

end Reactors.Script
