import Mathlib.Data.List.Forall2
import Reactors.Proofs.Collect

/-! # Computations that report nothing

    `x.Quiet a` says that the computation `x` ends with the result `a` and reports nothing on the
    way.  A computation made of parts is quiet only if every part is, so what it gives then is read
    off its parts one after the other.
-/

namespace Reactors.Collect

variable {ε α β : Type}

/-- The computation ends with this result and reports nothing. -/
def Quiet (x : Collect ε α) (a : α) : Prop := x.run = some (a, [])

theorem quiet_pure_iff {a b : α} : (pure a : Collect ε α).Quiet b ↔ b = a := by
  simp [Quiet, eq_comm]

theorem not_quiet_report {e : ε} {u : Unit} : ¬ (report e).Quiet u := by
  simp [Quiet]

theorem quiet_lookup_iff {o : Lookup α} {a : α} :
    (lookup o : Collect ε α).Quiet a ↔ o = some a := by
  simp [Quiet]

/-- Both parts are quiet. -/
theorem quiet_bind_iff {x : Collect ε α} {f : α → Collect ε β} {b : β} :
    (x >>= f).Quiet b ↔ ∃ a, x.Quiet a ∧ (f a).Quiet b := by
  unfold Quiet
  rw [run_bind]
  constructor
  · intro h
    obtain ⟨⟨a, es⟩, hx, h⟩ := Option.bind_eq_some_iff.mp h
    obtain ⟨⟨b', fs⟩, hf, h⟩ := Option.map_eq_some_iff.mp h
    obtain ⟨rfl, hnil⟩ := Prod.mk.inj h
    obtain ⟨rfl, rfl⟩ := List.append_eq_nil_iff.mp hnil
    exact ⟨a, hx, hf⟩
  · intro ⟨a, hx, hf⟩
    simp [hx, hf]

theorem not_quiet_report_bind {e : ε} {f : Unit → Collect ε β} {b : β} :
    ¬ (report e >>= f).Quiet b := by
  rw [quiet_bind_iff]
  intro ⟨_, h, _⟩
  exact not_quiet_report h

theorem quiet_lookup_bind_iff {o : Lookup α} {f : α → Collect ε β} {b : β} :
    (lookup o >>= f).Quiet b ↔ ∃ a, o = some a ∧ (f a).Quiet b := by
  simp only [quiet_bind_iff, quiet_lookup_iff]

/-- What is known of the end of a computation holds of its result and of no reports. -/
theorem Quiet.post {x : Collect ε α} {a : α} (h : x.Quiet a) {post : α → List ε → Prop}
    (hends : x.Ends post) : post a [] := by
  obtain ⟨b, es, hx, hpost⟩ := hends
  unfold Quiet at h
  rw [h] at hx
  cases hx
  exact hpost

end Reactors.Collect
