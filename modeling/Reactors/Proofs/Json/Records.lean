import Reactors.Json.Record
import Reactors.Proofs.Json.Forms
import Reactors.Proofs.Json.Members
import Reactors.Proofs.Lookup

/-! # Records in documents

    A record stands in a document as an object with its fields in any order, each at most once, and
    a field may be left out where it holds its default.  The decoder of records puts the fields
    into a draft as it meets them.  So the draft is at any time the record as far as it is given,
    with defaults elsewhere; and in the end the fields that were not given held their defaults.
-/

namespace Reactors.Json

open Lookup (exists_mem_of_forall₂ map_eq_of_forall₂)

/-! ## The form of a record -/

/-- One field of a record as it may stand in a document. -/
structure FieldForm where
  /-- The key of the field. -/
  name : String
  /-- Whether the field may be left out. -/
  omissible : Prop
  /-- Whether a reading stands for what the field holds. -/
  holds : Reading → Prop

/-- A field that holds `a`, and may be left out if that is its default. -/
def FieldForm.of {α : Type} (name : String) (form : Form α) (a : α) (default : Option α) :
    FieldForm :=
  { name, omissible := default = some a, holds := form a }

/-- An object of these fields: in any order, none of them twice, and left out only what may be. -/
def IsRecord (parts : List FieldForm) (r : Reading) : Prop :=
  ∃ entries : List (String × Reading), r = .object (.ofList entries) ∧ (keys entries).Nodup ∧
    (∀ e ∈ entries, ∃ p ∈ parts, p.name = e.1 ∧ p.holds e.2) ∧
    ∀ p ∈ parts, p.name ∉ keys entries → p.omissible

/-- A record in which some of the fields are given, in this order. -/
theorem isRecord_ofList {parts : List FieldForm} (given : List FieldForm)
    {entries : List (String × Reading)}
    (h : List.Forall₂ (fun p e => p.name = e.1 ∧ p.holds e.2) given entries)
    (hgiven : ∀ p ∈ given, p ∈ parts) (hnodup : (keys entries).Nodup)
    (homitted : ∀ p ∈ parts, p.name ∉ keys entries → p.omissible) :
    IsRecord parts (.object (.ofList entries)) := by
  refine ⟨entries, rfl, hnodup, fun e he => ?_, homitted⟩
  obtain ⟨p, hp, hname, hholds⟩ := exists_mem_of_forall₂ h.flip he
  exact ⟨p, hgiven p hp, hname, hholds⟩

/-- A record without anything left out. -/
theorem exists_isRecord {parts : List FieldForm} (hnames : (parts.map FieldForm.name).Nodup)
    (h : ∀ p ∈ parts, ∃ r, p.holds r ∧ Spellable r) : ∃ r, IsRecord parts r ∧ Spellable r := by
  choose! value hvalue using h
  have hkeys : keys (parts.map fun p => (p.name, value p)) = parts.map FieldForm.name := by
    simp [keys, Function.comp_def]
  refine ⟨.object (.ofList (parts.map fun p => (p.name, value p))),
    isRecord_ofList parts ?_ (fun p hp => hp) (hkeys ▸ hnames) ?_, spellable_object ?_⟩
  · rw [List.forall₂_map_right_iff, List.forall₂_same]
    exact fun p hp => ⟨rfl, (hvalue p hp).1⟩
  · intro p hp hnot
    exact absurd (hkeys ▸ List.mem_map_of_mem hp) hnot
  · intro e he
    obtain ⟨p, hp, rfl⟩ := List.mem_map.mp he
    exact (hvalue p hp).2

/-- What stands under the key of a field that may not be left out. -/
theorem exists_entry {parts : List FieldForm} (hnames : (parts.map FieldForm.name).Nodup)
    {entries : List (String × Reading)}
    (hheld : ∀ e ∈ entries, ∃ p ∈ parts, p.name = e.1 ∧ p.holds e.2)
    (homitted : ∀ p ∈ parts, p.name ∉ keys entries → p.omissible) {p : FieldForm} (hp : p ∈ parts)
    (hrequired : ¬ p.omissible) : ∃ r, (p.name, r) ∈ entries ∧ p.holds r := by
  have hmem : p.name ∈ keys entries := by
    by_contra hnot
    exact hrequired (homitted p hp hnot)
  obtain ⟨⟨name, r⟩, he, rfl⟩ := List.mem_map.mp hmem
  obtain ⟨q, hq, hname, hholds⟩ := hheld _ he
  obtain rfl : q = p := List.inj_on_of_nodup_map hnames hq hp hname
  exact ⟨r, he, hholds⟩

/-! ## Members by their keys -/

namespace Members
variable {entries : List (String × Reading)} {key : String}

theorem isIntact_ofList :
    (Members.ofList entries).isIntact = true ↔ ∀ e ∈ entries, e.2.isIntact = true := by
  induction entries with
  | nil => simp [ofList, isIntact]
  | cons e entries ih => simp [ofList, isIntact, ih]

theorem valuesOf_ofList_of_notMem (h : key ∉ keys entries) :
    (Members.ofList entries).valuesOf key = [] := by
  induction entries with
  | nil => rfl
  | cons e entries ih =>
    obtain ⟨hne, hrest⟩ := not_or.mp (mt List.mem_cons.mpr h)
    rw [ofList, valuesOf, if_neg (Ne.symm hne), ih hrest]

/-- A key that comes once has one value. -/
theorem valuesOf_ofList (hnodup : (keys entries).Nodup) {r : Reading} (h : (key, r) ∈ entries) :
    (Members.ofList entries).valuesOf key = [r] := by
  induction entries with
  | nil => simp at h
  | cons e entries ih =>
    obtain ⟨hfirst, hrest⟩ := List.nodup_cons.mp hnodup
    rcases List.mem_cons.mp h with rfl | h
    · rw [ofList, valuesOf, if_pos rfl, valuesOf_ofList_of_notMem hfirst]
    · have hne : e.1 ≠ key := fun heq => hfirst (List.mem_map.mpr ⟨_, h, heq.symm⟩)
      rw [ofList, valuesOf, if_neg hne, ih hrest h]

end Members

/-! ## Drafts -/

variable {σ : Type}

/-- What a draft holds in a field: what is given, or else what it held at the start. -/
def pick {α : Type} (given : List String) (name : String) (a start : α) : α :=
  if name ∈ given then a else start

@[simp]
theorem pick_cons_self {α : Type} (given : List String) (name : String) (a start : α) :
    pick (name :: given) name a start = a := by
  simp [pick]

@[simp]
theorem pick_cons_of_ne {α : Type} {given : List String} {name other : String} (a start : α)
    (h : name ≠ other) : pick (other :: given) name a start = pick given name a start := by
  simp [pick, h]

/-- A field that is not given holds what it has to if it is one that may be left out. -/
theorem pick_eq {α : Type} {given : List String} {name : String} {a start : α}
    (h : name ∉ given → start = a) : pick given name a start = a := by
  unfold pick
  split
  · rfl
  · next hnot => exact h hnot

/-- A field that has to be given holds what is given. -/
theorem pick_required {α : Type} {given : List String} {name : String} {a start : α}
    (h : name ∉ given → (none : Option α) = some a) : pick given name a start = a :=
  pick_eq fun hnot => nomatch h hnot

/-- `progress given` is the draft after the fields in `given`, and `f` takes it one field
    further. -/
structure Reads (room : Nat) (progress : List String → σ) (f : FieldOf σ) (p : FieldForm) :
    Prop where
  name : f.name = p.name
  optional : p.omissible → f.required = false
  written : ∃ r, p.holds r ∧ Spellable r
  decode : ∀ r, p.holds r → r.depth ≤ room → ∀ given,
    f.decode r (progress given) = .ok (progress (p.name :: given))

theorem Reads.make {α : Type} {room : Nat} {progress : List String → σ} {name : String}
    {required : Bool} {decoder : Decoder α} {put : α → σ → σ} {form : Form α} {a : α}
    {default : Option α} (h : Restores room decoder a (form a))
    (hoptional : required = default.isNone)
    (hput : ∀ given, put a (progress given) = progress (name :: given)) :
    Reads room progress (.make name required decoder put) (.of name form a default) where
  name := rfl
  optional hdefault := by
    rw [show default = some a from hdefault] at hoptional
    exact hoptional
  written := h.written
  decode r hr hdepth given := by
    show (put · (progress given)) <$> decoder r = _
    rw [h.decode r hr hdepth]
    exact congrArg Except.ok (hput given)

namespace Record

/-- The members of an object are put into the draft one after the other. -/
theorem members_ofList {fields : List (FieldOf σ)} {progress : List String → σ}
    {entries : List (String × Reading)} {given : List String}
    (hfields : ∀ e ∈ entries, ∃ f, (fields.find? fun f => f.name == e.1) = some f ∧
      ∀ given, f.decode e.2 (progress given) = .ok (progress (e.1 :: given)))
    (hnodup : (keys entries).Nodup) (hnew : ∀ name ∈ keys entries, name ∉ given)
    (hrequired : ∀ f ∈ fields, f.required = true → f.name ∈ keys entries ∨ f.name ∈ given) :
    members fields given (progress given) (.ofList entries) =
      .ok (progress ((keys entries).reverse ++ given)) := by
  induction entries generalizing given with
  | nil =>
    -- at the closing brace nothing is missing that has to be given
    have hnone : (fields.find? fun f => f.required && !given.contains f.name) = none := by
      rw [List.find?_eq_none]
      intro f hf hmissing
      simp only [Bool.and_eq_true, Bool.not_eq_true', List.contains_eq_mem,
        decide_eq_false_iff_not] at hmissing
      rcases hrequired f hf hmissing.1 with h | h
      · simp [keys] at h
      · exact hmissing.2 h
    simp only [Members.ofList, members, hnone]
    rfl
  | cons e entries ih =>
    obtain ⟨f, hfind, hdecode⟩ := hfields e (by simp)
    obtain ⟨hfirst, hrest⟩ := List.nodup_cons.mp hnodup
    have hgiven : given.contains e.1 = false := by
      simpa using hnew e.1 (by simp [keys])
    -- from here on the key counts as given
    have htail := @ih (e.1 :: given) (fun e he => hfields e (by simp [he])) hrest
      (by
        intro name hname hmem
        rcases List.mem_cons.mp hmem with rfl | hmem
        · exact hfirst hname
        · exact hnew name (by simp [keys] at hname ⊢; exact .inr hname) hmem)
      (by
        intro f hf hreq
        rcases hrequired f hf hreq with h | h
        · rcases List.mem_cons.mp h with h | h
          · exact .inr (by simp [h])
          · exact .inl h
        · exact .inr (by simp [h]))
    simp only [Members.ofList, members, hfind, hgiven]
    show (f.decode e.2 (progress given) >>= _) = _
    rw [hdecode]
    show members fields (e.1 :: given) (progress (e.1 :: given)) (.ofList entries) = _
    rw [htail]
    simp [keys]

end Record

/-- The decoder of a record restores it if its fields are read one by one, and if a draft is the
    record as soon as nothing is missing that has to be given. -/
theorem Restores.record {room : Nat} {typeName : String} {fields : List (FieldOf σ)} {draft a : σ}
    {parts : List FieldForm} (progress : List String → σ)
    (hreads : List.Forall₂ (Reads room progress) fields parts)
    (hnames : (parts.map FieldForm.name).Nodup) (hstart : progress [] = draft)
    (hend : ∀ given, (∀ p ∈ parts, p.name ∉ given → p.omissible) → progress given = a) :
    Restores (room + 1) (Record.decoder typeName fields draft) a (IsRecord parts) where
  written := exists_isRecord hnames fun p hp => by
    obtain ⟨f, _, hf⟩ := exists_mem_of_forall₂ hreads.flip hp
    exact hf.written
  decode := by
    rintro r ⟨entries, rfl, hnodup, hheld, homitted⟩ hdepth
    have hroom := Members.depth_ofList_le.mp (Nat.le_of_succ_le_succ hdepth)
    have hfieldNames : (fields.map FieldOf.name).Nodup := by
      rwa [map_eq_of_forall₂ hreads fun _ _ h => h.name]
    have hfields : ∀ e ∈ entries, ∃ f, (fields.find? fun f => f.name == e.1) = some f ∧
        ∀ given, f.decode e.2 (progress given) = .ok (progress (e.1 :: given)) := by
      intro e he
      obtain ⟨p, hp, hname, hvalue⟩ := hheld e he
      obtain ⟨f, hf, hread⟩ := exists_mem_of_forall₂ hreads.flip hp
      have hfname : f.name = e.1 := hread.name.trans hname
      refine ⟨f, hfname ▸ find?_of_nodup hfieldNames hf, fun given => ?_⟩
      rw [hread.decode e.2 hvalue (hroom e he), hname]
    have hrequired : ∀ f ∈ fields, f.required = true → f.name ∈ keys entries ∨ f.name ∈ [] := by
      intro f hf hrequired
      obtain ⟨p, hp, hread⟩ := exists_mem_of_forall₂ hreads hf
      by_contra hnot
      have homissible := homitted p hp fun hmem => hnot (.inl (hread.name ▸ hmem))
      rw [hread.optional homissible] at hrequired
      cases hrequired
    have hdecode := Record.members_ofList hfields hnodup (by simp) hrequired
    show Record.members fields [] draft (.ofList entries) = _
    rw [← hstart, hdecode, List.append_nil, hend]
    intro p hp hnot
    exact homitted p hp (by simpa using hnot)

end Reactors.Json
