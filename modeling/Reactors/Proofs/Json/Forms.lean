import Mathlib.Data.List.Forall2
import Reactors.Json.Variant
import Reactors.Proofs.Json.Spellings

/-! # What may stand for a value

    A form tells which readings stand for a value.  A decoder restores the value if it gives it back
    from all of them, and if there is one that can be written.  The forms of the basic types come
    first, then those of lists and of tagged values.
-/

namespace Reactors.Json

variable {α β : Type}

/-- The readings that stand for each value of a type. -/
abbrev Form (α : Type) : Type := α → Reading → Prop

namespace Form

/-- A string. -/
def string : Form String := fun s r => r = .string s

/-- A truth value. -/
def bool : Form Bool := fun b r => r = .bool b

/-- A natural number. -/
def natural : Form Nat := fun n r => r = .number (.int n)

/-- An integer. -/
def integer : Form Int := fun n r => r = .number (.int n)

/-- A finite floating-point number: the number itself, or an integer that it is nearest to. -/
inductive float : Form Binary64
  | itself {negative : Bool} {rank : Fin Binary64.rankLimit} :
      float (.finite negative rank) (.number (.float (.finite negative rank)))
  | rounded {n : Int} {rank : Fin Binary64.rankLimit} :
      Binary64.Rounds n.natAbs rank → float (.finite (n < 0) rank) (.number (.int n))

/-- A value, or `null` in place of none. -/
def option (form : Form α) : Form (Option α)
  | none, r => r = .null
  | some a, r => form a r

/-- An array with an item for each value. -/
def list (form : Form α) : Form (List α) := fun as r =>
  ∃ rs, r = .array (.ofList rs) ∧ List.Forall₂ form as rs

/-- An object whose only key is the tag. -/
def tagged (tag : String) (form : Form α) : Form α := fun a r =>
  ∃ value, r = .object (.ofList [(tag, value)]) ∧ form a value

/-- One of several tags: the tag itself, or `null` under the tag. -/
def choice (tags : List (String × α)) : Form α := fun a r =>
  ∃ tag, (tag, a) ∈ tags ∧ (r = .string tag ∨ r = .object (.ofList [(tag, .null)]))

end Form

/-! ## Depth -/

theorem Items.depth_ofList_le {rs : List Reading} {room : Nat} :
    (Items.ofList rs).depth ≤ room ↔ ∀ r ∈ rs, r.depth ≤ room := by
  induction rs with
  | nil => simp [ofList, depth]
  | cons r rs ih => simp [ofList, depth, ih]

theorem Members.depth_ofList_le {entries : List (String × Reading)} {room : Nat} :
    (Members.ofList entries).depth ≤ room ↔ ∀ e ∈ entries, e.2.depth ≤ room := by
  induction entries with
  | nil => simp [ofList, depth]
  | cons e entries ih => simp [ofList, depth, ih]

/-! ## Names -/

/-- Where no two of a list have one name, each is found by its name. -/
theorem find?_of_nodup {name : α → String} {as : List α} (h : (as.map name).Nodup) {a : α}
    (ha : a ∈ as) : (as.find? fun b => name b == name a) = some a := by
  induction as with
  | nil => simp at ha
  | cons b as ih =>
    obtain ⟨hfirst, hrest⟩ := List.nodup_cons.mp h
    rcases List.mem_cons.mp ha with rfl | ha
    · simp
    · have hne : name b ≠ name a := fun heq => hfirst (heq ▸ List.mem_map_of_mem ha)
      rw [List.find?_cons_of_neg (by simpa using hne), ih hrest ha]

/-! ## Restoring values -/

/-- A decoder gives a value back from whatever may stand for it and has at most `room` brackets
    around one another.  Something that may stand for the value can be written. -/
structure Restores (room : Nat) (decoder : Decoder α) (a : α) (holds : Reading → Prop) :
    Prop where
  written : ∃ r, holds r ∧ Spellable r
  decode : ∀ r, holds r → r.depth ≤ room → decoder r = .ok a

namespace Restores
variable {room : Nat}

theorem mono {less : Nat} {decoder : Decoder α} {a : α} {holds : Reading → Prop}
    (h : Restores room decoder a holds) (hle : less ≤ room) : Restores less decoder a holds where
  written := h.written
  decode r hr hdepth := h.decode r hr (hdepth.trans hle)

theorem string (s : String) : Restores room Decoder.string s (Form.string s) where
  written := ⟨_, rfl, spellable_string s⟩
  decode := by rintro r rfl _; rfl

theorem bool (b : Bool) : Restores room Decoder.bool b (Form.bool b) where
  written := ⟨_, rfl, by cases b <;> exact ⟨_, by constructor⟩⟩
  decode := by rintro r rfl _; rfl

theorem natural (typeName : String) {n : Nat} (hn : n < 2 ^ 64) :
    Restores room (Decoder.natural typeName) n (Form.natural n) where
  written := ⟨_, rfl, spellable_int (by omega) (by omega)⟩
  decode := by
    rintro r rfl _
    have hsign : ¬ (n : Int) < 0 := by omega
    simp [Decoder.natural, hsign]

theorem integer {n : Int} (hlow : -2 ^ 63 ≤ n) (hhigh : n < 2 ^ 63) :
    Restores room Decoder.integer n (Form.integer n) where
  written := ⟨_, rfl, spellable_int hlow (by omega)⟩
  decode := by
    rintro r rfl _
    exact if_neg (not_le.mpr hhigh)

theorem float {v : Binary64} (hv : v.isFinite = true) :
    Restores room Decoder.float v (Form.float v) where
  written := by
    match v, hv with
    | .finite negative rank, _ => exact ⟨_, .itself, spellable_finite negative rank⟩
  decode := by
    intro r hr _
    cases hr with
    | itself => rfl
    | @rounded n rank hrounds =>
      exact congrArg Except.ok (Binary64.ofInt_of_rounds hrounds rank.isLt)

theorem option {decoder : Decoder α} {form : Form α} (o : Option α)
    (hnull : ∀ a, ¬ form a .null) (h : ∀ a ∈ o, Restores room decoder a (form a)) :
    Restores room (Decoder.option decoder) o (Form.option form o) := by
  cases o with
  | none => exact ⟨⟨_, rfl, _, .null⟩, by rintro r rfl _; rfl⟩
  | some a =>
    have ha := h a rfl
    refine ⟨ha.written, fun r hr hdepth => ?_⟩
    -- the decoder takes `null` for no value at all
    have hne : r ≠ .null := by
      rintro rfl
      exact hnull a hr
    have hread : Decoder.option decoder r = some <$> decoder r := by
      cases r <;> first | rfl | exact absurd rfl hne
    rw [hread, ha.decode r hr hdepth]
    rfl

theorem list {decoder : Decoder α} {form : Form α} {as : List α}
    (h : ∀ a ∈ as, Restores room decoder a (form a)) :
    Restores room (Decoder.list decoder) as (Form.list form as) where
  written := by
    choose! item hitem using fun a ha => (h a ha).written
    refine ⟨_, ⟨as.map item, rfl, ?_⟩, spellable_array ?_⟩
    · rw [List.forall₂_map_right_iff, List.forall₂_same]
      exact fun a ha => (hitem a ha).1
    · intro r hr
      obtain ⟨a, ha, rfl⟩ := List.mem_map.mp hr
      exact (hitem a ha).2
  decode := by
    rintro r ⟨rs, rfl, hrs⟩ hdepth
    rw [Reading.depth] at hdepth
    have hroom := Items.depth_ofList_le.mp (Nat.le_of_succ_le hdepth)
    show Decoder.items decoder (.ofList rs) = .ok as
    clear hdepth
    induction hrs with
    | nil => rfl
    | @cons a r as rs hr _ ih =>
      have hhead := (h a (by simp)).decode r hr (hroom r (by simp))
      have htail := ih (fun a ha => h a (by simp [ha])) fun r hr => hroom r (by simp [hr])
      simp only [Items.ofList, Decoder.items, hhead, htail]
      rfl

/-! ## Tags -/

/-- The case of a tag decodes what stands under the tag. -/
theorem tagged {cases : List (Case β)} {decoder : Decoder α} {form : Form α} {a : α}
    {tag : String} {f : α → β}
    (hcase : Variant.select cases tag = .ok ⟨tag, fun r => f <$> decoder r⟩)
    (h : Restores room decoder a (form a)) :
    Restores room (Variant.decoder cases) (f a) (Form.tagged tag form a) where
  written := by
    obtain ⟨value, hvalue, hspell⟩ := h.written
    exact ⟨_, ⟨value, rfl, hvalue⟩, spellable_object (by simpa using hspell)⟩
  decode := by
    rintro r ⟨value, rfl, hvalue⟩ hdepth
    have hroom : value.depth ≤ room := by
      simp only [Members.ofList, Reading.depth, Members.depth] at hdepth
      omega
    simp only [Variant.decoder, Variant.tagged, Members.ofList, hcase]
    show (f <$> decoder value >>= fun b => return b) = Except.ok (f a)
    rw [h.decode value hvalue hroom]
    rfl

/-- A tag is found among tags that are all different. -/
theorem choice {tags : List (String × α)} (hdistinct : (tags.map Prod.fst).Nodup) {a : α}
    (ha : ∃ tag, (tag, a) ∈ tags) :
    Restores room (Variant.choice tags) a (Form.choice tags a) where
  written := by
    obtain ⟨tag, hmem⟩ := ha
    exact ⟨_, ⟨tag, hmem, .inl rfl⟩, spellable_string tag⟩
  decode := by
    rintro r ⟨tag, hmem, hr⟩ _
    have hfind := find?_of_nodup hdistinct hmem
    have hselect : Variant.select (tags.map fun t => Variant.bare t.1 t.2) tag =
        .ok (Variant.bare tag a) := by
      have hcase : ((tags.map fun t => Variant.bare t.1 t.2).find? fun c => c.name == tag) =
          some (Variant.bare tag a) := by
        rw [List.find?_map]
        exact congrArg (Option.map _) hfind
      rw [Variant.select, hcase]
    rcases hr with rfl | rfl
    · simp only [Variant.choice, hselect]
      rfl
    · simp only [Variant.choice, Variant.tagged, Members.ofList, hselect]
      rfl

end Restores

end Reactors.Json
