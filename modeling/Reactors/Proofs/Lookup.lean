import Mathlib.Data.List.Forall2
import Mathlib.Data.List.Nodup
import Mathlib.Data.List.Perm.Subperm
import Reactors.Id

/-! # Lists of look-ups

    Many answers follow a whole list of identities.  Such an answer is there exactly if every single
    one is, and it lists them in order.
-/

namespace Reactors.Lookup

variable {α β : Type}

/-! ## Lists side by side -/

/-- Where everything is found, what is found stands beside what it was found of. -/
theorem forall₂_filterMap {f : α → Option β} {rel : α → β → Prop} {xs : List α}
    (h : ∀ x ∈ xs, ∃ y, f x = some y ∧ rel x y) : List.Forall₂ rel xs (xs.filterMap f) := by
  induction xs with
  | nil => exact .nil
  | cons x xs ih =>
    obtain ⟨y, hy, hxy⟩ := h x (by simp)
    rw [List.filterMap_cons_some hy]
    exact .cons hxy (ih fun z hz => h z (by simp [hz]))

/-- What stands beside everything, found of it, is all that is found. -/
theorem filterMap_eq_of_forall₂ {f : α → Option β} {rel : α → β → Prop} {xs : List α} {ys : List β}
    (h : List.Forall₂ rel xs ys) (hf : ∀ x y, rel x y → f x = some y) : xs.filterMap f = ys := by
  induction h with
  | nil => rfl
  | cons hxy _ ih => rw [List.filterMap_cons_some (hf _ _ hxy), ih]

theorem map_eq_of_forall₂ {γ : Type} {rel : α → β → Prop} {xs : List α} {ys : List β}
    (h : List.Forall₂ rel xs ys) {f : α → γ} {g : β → γ} (hfg : ∀ x y, rel x y → f x = g y) :
    xs.map f = ys.map g := by
  induction h with
  | nil => rfl
  | cons hxy _ ih => rw [List.map_cons, List.map_cons, ih, hfg _ _ hxy]

/-- What stands beside a list of two parts has two parts as well. -/
theorem forall₂_append_left {rel : α → β → Prop} {xs ys : List α} {zs : List β}
    (h : List.Forall₂ rel (xs ++ ys) zs) :
    ∃ us vs, zs = us ++ vs ∧ List.Forall₂ rel xs us ∧ List.Forall₂ rel ys vs := by
  induction xs generalizing zs with
  | nil => exact ⟨[], zs, rfl, .nil, h⟩
  | cons x xs ih =>
    obtain ⟨z, rest, hxz, hrest, rfl⟩ := List.forall₂_cons_left_iff.mp h
    obtain ⟨us, vs, rfl, hus, hvs⟩ := ih hrest
    exact ⟨z :: us, vs, rfl, .cons hxz hus, hvs⟩

/-- What stands side by side in two lists is a pair of them. -/
theorem forall₂_zip {rel : α → β → Prop} {xs : List α} {ys : List β}
    (h : List.Forall₂ rel xs ys) :
    List.Forall₂ (fun x y => (x, y) ∈ xs.zip ys ∧ rel x y) xs ys := by
  induction h with
  | nil => exact .nil
  | cons hxy _ ih =>
    refine .cons ⟨List.mem_cons_self, hxy⟩ (ih.imp ?_)
    intro x y ⟨hmem, hxy⟩
    exact ⟨List.mem_cons_of_mem _ hmem, hxy⟩

/-- What stands side by side in two lists is in the lists. -/
theorem forall₂_mem {rel : α → β → Prop} {xs : List α} {ys : List β}
    (h : List.Forall₂ rel xs ys) :
    List.Forall₂ (fun x y => x ∈ xs ∧ y ∈ ys ∧ rel x y) xs ys := by
  apply (forall₂_zip h).imp
  intro x y ⟨hmem, hxy⟩
  obtain ⟨hx, hy⟩ := List.of_mem_zip hmem
  exact ⟨hx, hy, hxy⟩

theorem exists_mem_of_forall₂ {rel : α → β → Prop} {xs : List α} {ys : List β}
    (h : List.Forall₂ rel xs ys) {x : α} (hx : x ∈ xs) : ∃ y ∈ ys, rel x y := by
  induction h with
  | nil => simp at hx
  | cons hxy _ ih =>
    rcases List.mem_cons.mp hx with rfl | hx
    · exact ⟨_, List.mem_cons_self, hxy⟩
    · obtain ⟨y, hy, hxy⟩ := ih hx
      exact ⟨y, List.mem_cons_of_mem _ hy, hxy⟩

/-! ## Lists that are looked up -/

/-- Looking up a list gives the list of what each element gives. -/
theorem mapM_eq_some_iff {f : α → Lookup β} {xs : List α} {ys : List β} :
    xs.mapM f = some ys ↔ List.Forall₂ (fun x y => f x = some y) xs ys := by
  induction xs generalizing ys with
  | nil => simp [eq_comm]
  | cons x xs ih =>
    rw [List.mapM_cons, List.forall₂_cons_left_iff]
    constructor
    · intro h
      obtain ⟨y, hy, h⟩ := Option.bind_eq_some_iff.mp h
      obtain ⟨zs, hzs, h⟩ := Option.bind_eq_some_iff.mp h
      exact ⟨y, zs, hy, ih.mp hzs, (Option.some.inj h).symm⟩
    · intro ⟨y, zs, hy, hzs, hys⟩
      subst hys
      simp [hy, ih.mpr hzs]

/-- A list is looked up if each of its elements is. -/
theorem exists_mapM {f : α → Lookup β} {xs : List α} (h : ∀ x ∈ xs, ∃ y, f x = some y) :
    ∃ ys, xs.mapM f = some ys := by
  induction xs with
  | nil => exact ⟨[], rfl⟩
  | cons x xs ih =>
    obtain ⟨y, hy⟩ := h x (by simp)
    obtain ⟨ys, hys⟩ := ih fun z hz => h z (by simp [hz])
    exact ⟨y :: ys, by simp [hy, hys]⟩

/-- Where every element has a known answer, the list has the list of these. -/
theorem mapM_eq_map {f : α → Lookup β} {g : α → β} {xs : List α}
    (h : ∀ x ∈ xs, f x = some (g x)) : xs.mapM f = some (xs.map g) := by
  induction xs with
  | nil => rfl
  | cons x xs ih => simp [h x (by simp), ih fun z hz => h z (by simp [hz])]

/-- Looking up other elements that have other answers. -/
theorem mapM_map {γ δ : Type} {f : α → Lookup β} {f' : γ → Lookup δ} {g : α → γ} {k : β → δ}
    {xs : List α} (h : ∀ x ∈ xs, f' (g x) = (f x).map k) :
    (xs.map g).mapM f' = (xs.mapM f).map (List.map k) := by
  induction xs with
  | nil => rfl
  | cons x xs ih =>
    rw [List.map_cons, List.mapM_cons, List.mapM_cons, h x (by simp),
      ih fun y hy => h y (by simp [hy])]
    cases f x with
    | none => rfl
    | some y => cases xs.mapM f <;> rfl

/-- Looking up other elements that have the same answers. -/
theorem mapM_map_eq {γ : Type} {f : α → Lookup β} {f' : γ → Lookup β} {g : α → γ} {xs : List α}
    (h : ∀ x ∈ xs, f' (g x) = f x) : (xs.map g).mapM f' = xs.mapM f := by
  have hmap := mapM_map (k := id) fun x hx => (h x hx).trans Option.map_id_apply.symm
  simpa using hmap

/-- In another order the same answers are found, in another order. -/
theorem mapM_perm {f : α → Lookup β} {xs xs' : List α} (h : xs.Perm xs') {ys : List β}
    (hys : xs.mapM f = some ys) : ∃ ys', xs'.mapM f = some ys' ∧ ys.Perm ys' := by
  obtain ⟨ys', hys', hperm⟩ := List.perm_comp_forall₂ h.symm (mapM_eq_some_iff.mp hys)
  exact ⟨ys', mapM_eq_some_iff.mpr hys', hperm.symm⟩

/-- What can be told of each element from its answer can be told of the list from its answers. -/
theorem map_eq_of_mapM {γ : Type} {f : α → Lookup β} {xs : List α} {ys : List β}
    (h : xs.mapM f = some ys) {g : α → γ} {k : β → γ} (hgk : ∀ x y, f x = some y → g x = k y) :
    xs.map g = ys.map k := by
  rw [mapM_eq_some_iff] at h
  induction h with
  | nil => rfl
  | cons hxy _ ih => rw [List.map_cons, List.map_cons, ih, hgk _ _ hxy]

/-- What is found of each element is found of the list. -/
theorem filterMap_of_mapM {γ : Type} {f : α → Lookup β} {xs : List α} {ys : List β}
    (h : xs.mapM f = some ys) (g : β → γ) : xs.filterMap (fun x => (f x).map g) = ys.map g := by
  rw [mapM_eq_some_iff] at h
  induction h with
  | nil => rfl
  | cons hxy _ ih => rw [List.filterMap_cons_some (by rw [hxy]; rfl), ih, List.map_cons]

/-- Every element of the answer is the answer of an element. -/
theorem mem_of_mapM {f : α → Lookup β} {xs : List α} {ys : List β} (h : xs.mapM f = some ys)
    {y : β} (hy : y ∈ ys) : ∃ x ∈ xs, f x = some y := by
  rw [mapM_eq_some_iff] at h
  induction h with
  | nil => simp at hy
  | cons hxy _ ih =>
    rcases List.mem_cons.mp hy with rfl | hy
    · exact ⟨_, List.mem_cons_self, hxy⟩
    · obtain ⟨x, hx, hxy⟩ := ih hy
      exact ⟨x, List.mem_cons_of_mem _ hx, hxy⟩

/-- Every element has its answer among the answers. -/
theorem exists_mem_of_mapM {f : α → Lookup β} {xs : List α} {ys : List β}
    (h : xs.mapM f = some ys) {x : α} (hx : x ∈ xs) : ∃ y ∈ ys, f x = some y :=
  exists_mem_of_forall₂ (mapM_eq_some_iff.mp h) hx

/-- Lists that are looked up one behind the other: what one of them has, all of them have. -/
theorem exists_mapM_flatten {f : α → Lookup (List β)} (has : α → β → Prop) {xs : List α}
    (h : ∀ x ∈ xs, ∃ ys, f x = some ys ∧ ∀ y, has x y → y ∈ ys) :
    ∃ yss, xs.mapM f = some yss ∧ ∀ x ∈ xs, ∀ y, has x y → y ∈ yss.flatten := by
  obtain ⟨yss, hyss⟩ := exists_mapM fun x hx => by
    obtain ⟨ys, hys, _⟩ := h x hx
    exact ⟨ys, hys⟩
  refine ⟨yss, hyss, ?_⟩
  intro x hx y hy
  obtain ⟨ys, hys, hmem⟩ := h x hx
  obtain ⟨zs, hzs, hxzs⟩ := exists_mem_of_mapM hyss hx
  rw [hxzs] at hys
  cases hys
  exact List.mem_flatten.mpr ⟨ys, hzs, hmem y hy⟩

/-! ## Bounds -/

/-- Different elements whose places are all in range are no more than the range has. -/
theorem length_le_of_lt {place : α → Nat} (hinj : Function.Injective place) {xs : List α}
    (hnd : xs.Nodup) {size : Nat} (hlt : ∀ x ∈ xs, place x < size) : xs.length ≤ size := by
  have hsub : xs.map place ⊆ List.range size := by
    intro i hi
    obtain ⟨x, hx, rfl⟩ := List.mem_map.mp hi
    exact List.mem_range.mpr (hlt x hx)
  have hle := (List.subperm_of_subset (hnd.map hinj) hsub).length_le
  simpa using hle

end Reactors.Lookup
