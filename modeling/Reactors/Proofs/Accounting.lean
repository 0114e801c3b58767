import Mathlib.Data.List.Forall2
import Reactors.Proofs.Quiet

/-! # Accounting for what is left out

    A computation that leaves something out of what it is given reports it.  That it reports
    everything, and nothing twice, is said in two parts: what is given is sifted into what is kept
    and what is lost, and the reports are about the losses one by one.  `x.Accounts about post`
    says the second, and `post` relates the losses to the result.
-/

namespace Reactors

/-! ## Sifting -/

section sifted
variable {α β γ : Type}

/-- A list is sifted: each element is kept as something, where parts of it may be lost, or it is
    lost as a whole.  All losses are listed in order. -/
inductive Sifted (kept : α → β → List γ → Prop) (lost : α → γ → Prop) :
    List α → List β → List γ → Prop
  | nil : Sifted kept lost [] [] []
  | keep {x : α} {y : β} {inner : List γ} {xs : List α} {ys : List β} {losses : List γ}
      (h : kept x y inner) (rest : Sifted kept lost xs ys losses) :
      Sifted kept lost (x :: xs) (y :: ys) (inner ++ losses)
  | leave {x : α} {loss : γ} {xs : List α} {ys : List β} {losses : List γ}
      (h : lost x loss) (rest : Sifted kept lost xs ys losses) :
      Sifted kept lost (x :: xs) ys (loss :: losses)

/-- Every element is kept, where parts of it may be lost. -/
abbrev AllKept (kept : α → β → List γ → Prop) : List α → List β → List γ → Prop :=
  Sifted kept fun _ _ => False

namespace Sifted

variable {kept kept' : α → β → List γ → Prop} {lost : α → γ → Prop} {xs : List α} {ys : List β}
  {losses : List γ}

theorem imp (h : Sifted kept lost xs ys losses)
    (himp : ∀ x ∈ xs, ∀ y inner, kept x y inner → kept' x y inner) :
    Sifted kept' lost xs ys losses := by
  induction h with
  | nil => exact .nil
  | keep h _ ih => exact .keep (himp _ (by simp) _ _ h) (ih fun x hx => himp x (by simp [hx]))
  | leave h _ ih => exact .leave h (ih fun x hx => himp x (by simp [hx]))

theorem append (h : Sifted kept lost xs ys losses) {xs' : List α} {ys' : List β}
    {losses' : List γ} (h' : Sifted kept lost xs' ys' losses') :
    Sifted kept lost (xs ++ xs') (ys ++ ys') (losses ++ losses') := by
  induction h with
  | nil => exact h'
  | keep h _ ih =>
    rw [List.append_assoc]
    exact .keep h ih
  | leave h _ ih => exact .leave h ih

/-- An element that is kept without a loss. -/
theorem whole (rest : Sifted kept lost xs ys losses) {x : α} {y : β} (h : kept x y []) :
    Sifted kept lost (x :: xs) (y :: ys) losses :=
  .keep h rest

/-- A single element that is kept. -/
theorem single {x : α} {y : β} {inner : List γ} (h : kept x y inner) :
    Sifted kept lost [x] [y] inner := by
  have hone : Sifted kept lost [x] [y] (inner ++ []) := .keep h .nil
  rwa [List.append_nil] at hone

/-- Where no parts are lost, what is kept and what is lost are together as many as were given. -/
theorem length_eq (h : Sifted kept lost xs ys losses)
    (hparts : ∀ x y inner, kept x y inner → inner = []) :
    ys.length + losses.length = xs.length := by
  induction h with
  | nil => rfl
  | keep h _ ih =>
    rw [hparts _ _ _ h, List.nil_append, List.length_cons, List.length_cons, ← ih]
    omega
  | leave _ _ ih => rw [List.length_cons, List.length_cons, ← ih, Nat.add_assoc]

end Sifted

namespace AllKept

variable {kept : α → β → List γ → Prop} {xs : List α} {ys : List β} {losses : List γ}

/-- What the elements are kept as, said in other words. -/
theorem transfer {β' : Type} {kept' : α → β' → List γ → Prop} {rel : α → β' → Prop} {zs : List β'}
    (h : AllKept kept xs ys losses) (hzs : List.Forall₂ rel xs zs)
    (himp : ∀ x y z inner, kept x y inner → rel x z → kept' x z inner) :
    AllKept kept' xs zs losses := by
  induction h generalizing zs with
  | nil =>
    cases hzs
    exact .nil
  | keep h _ ih =>
    cases hzs with
    | cons hz hzs => exact .keep (himp _ _ _ _ h hz) (ih hzs)
  | leave h => exact h.elim

theorem map {α' : Type} {kept' : α' → β → List γ → Prop} (f : α → α')
    (h : AllKept kept xs ys losses)
    (himp : ∀ x y inner, kept x y inner → kept' (f x) y inner) :
    AllKept kept' (xs.map f) ys losses := by
  induction h with
  | nil => exact .nil
  | keep h _ ih => exact .keep (himp _ _ _ h) ih
  | leave h => exact h.elim

end AllKept

end sifted

/-! ## Reports about losses -/

namespace Collect

variable {ε σ α β : Type}

/-- If the computation ends, its reports are about the elements of a list one by one, and its
    result and this list are as `post` says. -/
def Accounts (about : σ → ε → Prop) (x : Collect ε α) (post : α → List σ → Prop) : Prop :=
  x.Ensures fun a es => ∃ ss, List.Forall₂ about ss es ∧ post a ss

/-- If the computation ends, it gives something and reports nothing, or gives nothing and reports
    one problem. -/
def Settles (x : Collect ε (Option α)) (P : ε → Prop) : Prop :=
  x.Ensures fun o es => (∃ a, o = some a ∧ es = []) ∨ (o = none ∧ ∃ e, es = [e] ∧ P e)

namespace Settles

variable {x : Collect ε (Option α)} {P : ε → Prop}

theorem pure (a : α) : (Pure.pure (some a) : Collect ε (Option α)).Settles P :=
  Ensures.pure (.inl ⟨a, rfl, rfl⟩)

theorem report {e : ε} (h : P e) :
    (Collect.report e >>= fun _ => Pure.pure none : Collect ε (Option α)).Settles P :=
  .report_bind (.pure (.inr ⟨rfl, e, rfl, h⟩))

theorem lookup_bind {o : Lookup β} {f : β → Collect ε (Option α)}
    (h : ∀ b, o = some b → (f b).Settles P) : (Collect.lookup o >>= f).Settles P :=
  Ensures.lookup_bind h

/-- Nothing goes on without a result. -/
theorem bind (h : x.Settles P) {f : Option α → Collect ε (Option β)}
    (hsome : ∀ a, (f (some a)).Settles P) (hnone : f none = Pure.pure none) :
    (x >>= f).Settles P := by
  refine Ensures.bind h fun o es ho => ?_
  rcases ho with ⟨a, rfl, rfl⟩ | ⟨rfl, e, rfl, he⟩
  · exact hsome a
  · rw [hnone]
    exact .pure (.inr ⟨rfl, e, rfl, he⟩)

theorem map (h : x.Settles P) (g : α → β) :
    (x >>= fun o => Pure.pure (o.map g)).Settles P :=
  h.bind (fun a => .pure (g a)) rfl

end Settles

namespace Accounts

variable {about : σ → ε → Prop} {x : Collect ε α} {f : α → Collect ε β}
  {post : α → List σ → Prop} {post' : β → List σ → Prop}

theorem mono (h : x.Accounts about post) {post' : α → List σ → Prop}
    (himp : ∀ a ss, post a ss → post' a ss) : x.Accounts about post' :=
  Ensures.mono h fun a _ ⟨ss, hss, hpost⟩ => ⟨ss, hss, himp a ss hpost⟩

/-- What holds of every end holds besides. -/
theorem and (h : x.Accounts about post) {q : α → List ε → Prop} (hq : x.Ensures q) :
    x.Accounts about fun a ss => post a ss ∧ ∃ es, q a es := by
  intro a es hrun
  obtain ⟨ss, hss, hpost⟩ := h a es hrun
  exact ⟨ss, hss, hpost, es, hq a es hrun⟩

theorem pure {a : α} (h : post a []) : (Pure.pure a : Collect ε α).Accounts about post :=
  Ensures.pure ⟨[], .nil, h⟩

/-- The losses of the second computation stand behind those of the first. -/
theorem bind (h : x.Accounts about post)
    (hf : ∀ a ss, post a ss → (f a).Accounts about fun b ts => post' b (ss ++ ts)) :
    (x >>= f).Accounts about post' := by
  refine Ensures.bind h fun a es ⟨ss, hss, hpost⟩ => ?_
  exact Ensures.mono (hf a ss hpost) fun b fs ⟨ts, hts, hpost'⟩ =>
    ⟨ss ++ ts, List.rel_append hss hts, hpost'⟩

theorem lookup_bind {o : Lookup α} (h : ∀ a, o = some a → (f a).Accounts about post') :
    (Collect.lookup o >>= f).Accounts about post' :=
  Ensures.lookup_bind h

/-- A problem reported in front is about a loss in front. -/
theorem report_bind {e : ε} {s : σ} {f : Unit → Collect ε β} (hs : about s e)
    (h : (f ()).Accounts about fun b ts => post' b (s :: ts)) :
    (Collect.report e >>= f).Accounts about post' :=
  Ensures.report_bind (Ensures.mono h fun _ _ ⟨ts, hts, hpost⟩ => ⟨s :: ts, .cons hs hts, hpost⟩)

/-- What settles is followed either by what goes on with its result, where it was quiet, or by what
    goes on without, behind one loss. -/
theorem settle {x : Collect ε (Option α)} {f : Option α → Collect ε β} {s : σ}
    (hx : x.Settles (about s))
    (hsome : ∀ a, x.Quiet (some a) → (f (some a)).Accounts about post')
    (hnone : ∀ e, x.run = some (none, [e]) →
      (f none).Accounts about fun b ts => post' b (s :: ts)) :
    (x >>= f).Accounts about post' := by
  intro b es hrun
  rw [run_bind] at hrun
  obtain ⟨⟨o, es₁⟩, ho, hrun⟩ := Option.bind_eq_some_iff.mp hrun
  obtain ⟨⟨b', es₂⟩, hb, hrun⟩ := Option.map_eq_some_iff.mp hrun
  cases hrun
  rcases hx o es₁ ho with ⟨a, rfl, rfl⟩ | ⟨rfl, e, rfl, he⟩
  · exact hsome a ho b' es₂ hb
  · obtain ⟨ts, hts, hpost⟩ := hnone e ho b' es₂ hb
    exact ⟨s :: ts, .cons he hts, hpost⟩

end Accounts

end Collect

end Reactors
