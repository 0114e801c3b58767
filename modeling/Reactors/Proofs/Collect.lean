import Mathlib.Data.List.Forall2
import Reactors.Collect

/-! # What computations that report end in

    `x.Ends post` says that the computation `x` ends, and that `post` holds of its result and of
    the problems it reports.  Every operation of `Collect` has one rule, so that what a function
    ends in is put together from what its parts end in.
-/

namespace Reactors.Collect

variable {ε α β : Type}

/-- The computation ends, and its result and its reports are as `post` says. -/
def Ends (x : Collect ε α) (post : α → List ε → Prop) : Prop :=
  ∃ a es, x.run = some (a, es) ∧ post a es

namespace Ends

variable {x : Collect ε α} {f : α → Collect ε β} {post : α → List ε → Prop}
  {post' : β → List ε → Prop}

theorem mono (h : x.Ends post) {post' : α → List ε → Prop}
    (himp : ∀ a es, post a es → post' a es) : x.Ends post' := by
  obtain ⟨a, es, hx, hpost⟩ := h
  exact ⟨a, es, hx, himp a es hpost⟩

theorem pure {a : α} (h : post a []) : (Pure.pure a : Collect ε α).Ends post :=
  ⟨a, [], rfl, h⟩

theorem report {e : ε} {post : Unit → List ε → Prop} (h : post () [e]) :
    (Collect.report e).Ends post :=
  ⟨(), [e], rfl, h⟩

/-- The reports of the second computation stand behind those of the first. -/
theorem bind (h : x.Ends post)
    (hf : ∀ a es, post a es → (f a).Ends fun b fs => post' b (es ++ fs)) :
    (x >>= f).Ends post' := by
  obtain ⟨a, es, hx, hpost⟩ := h
  obtain ⟨b, fs, hb, hpost'⟩ := hf a es hpost
  exact ⟨b, es ++ fs, by rw [run_bind, hx]; simp [hb], hpost'⟩

end Ends

/-! ## Simple computations in front -/

theorem lookup_bind {o : Lookup α} {a : α} (ho : o = some a) (f : α → Collect ε β) :
    (lookup o >>= f) = f a := by
  rw [ho]
  exact pure_bind a f

/-- A problem reported in front. -/
theorem Ends.report_bind {e : ε} {f : Unit → Collect ε β} {post : β → List ε → Prop}
    (h : (f ()).Ends fun b fs => post b (e :: fs)) : (Collect.report e >>= f).Ends post := by
  obtain ⟨b, fs, hb, hpost⟩ := h
  exact ⟨b, e :: fs, by rw [run_bind, run_report]; simp [hb], hpost⟩

/-! ## What holds of every end -/

/-- If the computation ends, its result and its reports are as `post` says. -/
def Ensures (x : Collect ε α) (post : α → List ε → Prop) : Prop :=
  ∀ a es, x.run = some (a, es) → post a es

namespace Ensures

variable {x : Collect ε α} {f : α → Collect ε β} {post : α → List ε → Prop}
  {post' : β → List ε → Prop}

theorem mono (h : x.Ensures post) {post' : α → List ε → Prop}
    (himp : ∀ a es, post a es → post' a es) : x.Ensures post' :=
  fun a es hx => himp a es (h a es hx)

theorem pure {a : α} (h : post a []) : (Pure.pure a : Collect ε α).Ensures post := by
  intro b es hx
  cases hx
  exact h

theorem report {e : ε} {post : Unit → List ε → Prop} (h : post () [e]) :
    (Collect.report e).Ensures post := by
  intro b es hx
  cases hx
  exact h

theorem lookup {o : Lookup α} (h : ∀ a, o = some a → post a []) :
    (Collect.lookup o : Collect ε α).Ensures post := by
  intro b es hx
  rw [run_lookup] at hx
  obtain ⟨a, ha, hx⟩ := Option.map_eq_some_iff.mp hx
  cases hx
  exact h b ha

theorem bind (h : x.Ensures post)
    (hf : ∀ a es, post a es → (f a).Ensures fun b fs => post' b (es ++ fs)) :
    (x >>= f).Ensures post' := by
  intro b es hx
  rw [run_bind] at hx
  obtain ⟨⟨a, es₁⟩, ha, hx⟩ := Option.bind_eq_some_iff.mp hx
  obtain ⟨⟨b', es₂⟩, hb, hx⟩ := Option.map_eq_some_iff.mp hx
  cases hx
  exact hf a es₁ (h a es₁ ha) b' es₂ hb

theorem lookup_bind {o : Lookup α} (h : ∀ a, o = some a → (f a).Ensures post') :
    (Collect.lookup o >>= f).Ensures post' := by
  cases o with
  | none =>
    intro b es hx
    cases hx
  | some a =>
    rw [Collect.lookup_bind rfl]
    exact h a rfl

theorem report_bind {e : ε} {f : Unit → Collect ε β}
    (h : (f ()).Ensures fun b fs => post' b (e :: fs)) :
    (Collect.report e >>= f).Ensures post' := by
  have hreport : (Collect.report e).Ensures fun _ es => es = [e] := report rfl
  exact hreport.bind fun _ _ hes => hes ▸ h

end Ensures

theorem Ends.ensures {x : Collect ε α} {post : α → List ε → Prop} (h : x.Ends post) :
    x.Ensures post := by
  obtain ⟨a, es, hx, hpost⟩ := h
  intro b fs hx'
  rw [hx] at hx'
  cases hx'
  exact hpost

/-- What holds of every end holds of the end there is. -/
theorem Ends.and {x : Collect ε α} {post post' : α → List ε → Prop} (h : x.Ends post)
    (h' : x.Ensures post') : x.Ends fun a es => post a es ∧ post' a es := by
  obtain ⟨a, es, hx, hpost⟩ := h
  exact ⟨a, es, hx, hpost, h' a es hx⟩

/-- What a computation ends in is what running it gives. -/
theorem Ends.and_run {x : Collect ε α} {post : α → List ε → Prop} (h : x.Ends post) :
    x.Ends fun a es => post a es ∧ x.run = some (a, es) :=
  h.and fun _ _ hx => hx

/-! ## What can be reported -/

/-- Every problem that the computation reports is one of `P`, if it ends. -/
def Reports (x : Collect ε α) (P : ε → Prop) : Prop := x.Ensures fun _ es => ∀ e ∈ es, P e

namespace Reports

variable {x : Collect ε α} {f : α → Collect ε β} {P : ε → Prop}

theorem mono (h : x.Reports P) {Q : ε → Prop} (himp : ∀ e, P e → Q e) : x.Reports Q :=
  Ensures.mono h fun _ _ hes e he => himp e (hes e he)

theorem pure {a : α} : (Pure.pure a : Collect ε α).Reports P := Ensures.pure (by simp)

theorem report {e : ε} (h : P e) : (Collect.report e).Reports P := Ensures.report (by simpa using h)

theorem lookup {o : Lookup α} : (Collect.lookup o : Collect ε α).Reports P :=
  Ensures.lookup (by simp)

theorem bind (h : x.Reports P) (hf : ∀ a, (f a).Reports P) : (x >>= f).Reports P := by
  refine Ensures.bind h fun a es hes => Ensures.mono (hf a) ?_
  intro b fs hfs e he
  rcases List.mem_append.mp he with he | he
  · exact hes e he
  · exact hfs e he

end Reports

/-! ## Lists of computations -/

/-- A list of computations gives the list of their results and reports all their problems, in
    order. -/
theorem run_mapM {f : α → Collect ε β} {xs : List α} {rs : List (β × List ε)}
    (h : List.Forall₂ (fun x r => (f x).run = some r) xs rs) :
    (xs.mapM f).run = some (rs.map Prod.fst, (rs.map Prod.snd).flatten) := by
  induction h with
  | nil => rfl
  | @cons x r xs rs hx _ ih =>
    rw [List.mapM_cons, run_bind, hx, Option.bind_some, run_bind, ih]
    simp

end Reactors.Collect
