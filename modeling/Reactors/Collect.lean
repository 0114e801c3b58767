import Reactors.Id

/-! # Computations that report problems and go on

    A check that stops at the first problem makes its reader run it again and again.  A computation
    in `Collect ε` therefore goes on after a problem: it gives a result together with the list of
    all problems on the way, in the order met.  Since it may follow identities, it can also end
    without either, as a `Lookup` can.
-/

namespace Reactors

/-- A result together with the problems met, or `none` if an identity leads nowhere. -/
def Collect (ε α : Type) : Type := Lookup (α × List ε)

namespace Collect

variable {ε α β : Type}

/-- The result and the problems. -/
def run (x : Collect ε α) : Lookup (α × List ε) := x

/-- Does nothing but give a result. -/
protected def pure (a : α) : Collect ε α := some (a, [])

/-- Goes on with a result; the problems met later stand behind the earlier ones. -/
protected def bind (x : Collect ε α) (f : α → Collect ε β) : Collect ε β :=
  match x with
  | none => none
  | some (a, es) =>
    match f a with
    | none => none
    | some (b, fs) => some (b, es ++ fs)

instance : Monad (Collect ε) where
  pure := Collect.pure
  bind := Collect.bind

/-- Reports one problem. -/
def report (e : ε) : Collect ε Unit := some ((), [e])

/-- Follows identities. -/
def lookup (x : Lookup α) : Collect ε α :=
  match x with
  | none => none
  | some a => some (a, [])

/-! ### Running the operations -/

@[simp] theorem run_pure (a : α) : (pure a : Collect ε α).run = some (a, []) := rfl

@[simp] theorem run_report (e : ε) : (report e).run = some ((), [e]) := rfl

@[simp] theorem run_lookup (x : Lookup α) :
    (lookup x : Collect ε α).run = x.map fun a => (a, []) := by
  cases x <;> rfl

theorem run_bind (x : Collect ε α) (f : α → Collect ε β) :
    (x >>= f).run =
      x.run.bind fun p => (f p.1).run.map fun q => (q.1, p.2 ++ q.2) := by
  rcases x with _ | ⟨a, es⟩
  · rfl
  · show Collect.bind (some (a, es)) f = _
    simp only [Collect.bind, run, Option.bind_some]
    cases f a <;> rfl

/-! ### The monad laws -/

theorem map_id (x : Collect ε α) : id <$> x = x := by
  rcases x with _ | ⟨a, es⟩
  · rfl
  · show some (a, es ++ []) = some (a, es)
    rw [List.append_nil]

theorem pure_bind (a : α) (f : α → Collect ε β) : pure a >>= f = f a := by
  show Collect.bind (some (a, [])) f = f a
  simp only [Collect.bind, List.nil_append]
  cases f a <;> rfl

theorem bind_assoc {γ : Type} (x : Collect ε α) (f : α → Collect ε β) (g : β → Collect ε γ) :
    x >>= f >>= g = x >>= fun a => f a >>= g := by
  rcases x with _ | ⟨a, es⟩
  · rfl
  · show Collect.bind (Collect.bind (some (a, es)) f) g =
      Collect.bind (some (a, es)) fun a => Collect.bind (f a) g
    simp only [Collect.bind]
    rcases f a with _ | ⟨b, fs⟩
    · rfl
    · rcases h : g b with _ | ⟨c, gs⟩
      · simp only [h]
        rfl
      · simp only [h, List.append_assoc]
        rfl

instance : LawfulMonad (Collect ε) := LawfulMonad.mk' _ map_id pure_bind bind_assoc

end Collect

end Reactors
