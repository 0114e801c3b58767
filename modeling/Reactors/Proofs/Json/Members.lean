import Mathlib.Data.List.Dedup
import Mathlib.Data.String.Basic
import Reactors.Json.Writer

/-! # The members of an object with sorted keys

    An object whose members are put in one after the other has the keys that were put in, each
    once, with the value that was put in last.  So members are lost exactly if a key was put in
    twice.
-/

namespace Reactors.Json

variable {α : Type}

/-- The keys of the members. -/
def keys (ms : List (String × α)) : List String := ms.map Prod.fst

/-- Every key stands behind the smaller ones. -/
def Ascending (ms : List (String × α)) : Prop := (keys ms).Pairwise (· < ·)

theorem mem_keys_insertSorted {key name : String} {value : α} {ms : List (String × α)} :
    name ∈ keys (insertSorted key value ms) ↔ name = key ∨ name ∈ keys ms := by
  induction ms with
  | nil => simp [insertSorted, keys]
  | cons m ms ih =>
    obtain ⟨k, v⟩ := m
    unfold insertSorted
    by_cases hlt : key < k
    · simp [hlt, keys]
    · by_cases heq : key = k
      · simp [heq, keys]
      · have hswap : name = k ∨ (name = key ∨ name ∈ keys ms) ↔
            name = key ∨ (name = k ∨ name ∈ keys ms) := or_left_comm
        simp only [if_neg hlt, if_neg heq]
        show name ∈ k :: keys (insertSorted key value ms) ↔ name = key ∨ name ∈ k :: keys ms
        rw [List.mem_cons, ih, List.mem_cons, hswap]

/-- A member is put where its key belongs. -/
theorem Ascending.insertSorted {ms : List (String × α)} (h : Ascending ms) (key : String)
    (value : α) : Ascending (insertSorted key value ms) := by
  induction ms with
  | nil => exact List.pairwise_singleton _ _
  | cons m ms ih =>
    obtain ⟨k, v⟩ := m
    obtain ⟨hfirst, hrest⟩ := List.pairwise_cons.mp h
    unfold Json.insertSorted
    by_cases hlt : key < k
    · rw [if_pos hlt]
      refine List.pairwise_cons.mpr ⟨?_, h⟩
      intro name hname
      rcases List.mem_cons.mp hname with rfl | hname
      · exact hlt
      · exact lt_trans hlt (hfirst name hname)
    · rw [if_neg hlt]
      by_cases heq : key = k
      · rw [if_pos heq, heq]
        exact List.pairwise_cons.mpr ⟨hfirst, hrest⟩
      · rw [if_neg heq]
        refine List.pairwise_cons.mpr ⟨?_, ih hrest⟩
        intro name hname
        rcases mem_keys_insertSorted.mp hname with rfl | hname
        · exact lt_of_le_of_ne (not_lt.mp hlt) (Ne.symm heq)
        · exact hfirst name hname

/-- What holds of an object after the members have been put into it. -/
theorem foldl_insertSorted (members acc : List (String × α)) (h : Ascending acc) :
    Ascending (members.foldl (fun acc m => insertSorted m.1 m.2 acc) acc) ∧
      ∀ name, name ∈ keys (members.foldl (fun acc m => insertSorted m.1 m.2 acc) acc) ↔
        name ∈ keys members ∨ name ∈ keys acc := by
  induction members generalizing acc with
  | nil => exact ⟨h, by simp [keys]⟩
  | cons m members ih =>
    obtain ⟨hsorted, hkeys⟩ := ih (insertSorted m.1 m.2 acc) (h.insertSorted m.1 m.2)
    refine ⟨hsorted, fun name => ?_⟩
    show _ ↔ name ∈ m.1 :: keys members ∨ name ∈ keys acc
    rw [List.foldl_cons, hkeys, mem_keys_insertSorted, List.mem_cons]
    tauto

theorem ascending_sortedMembers (members : List (String × α)) :
    Ascending (sortedMembers members) :=
  (foldl_insertSorted members [] List.Pairwise.nil).1

/-- No key is lost, and none is made up. -/
theorem mem_keys_sortedMembers {members : List (String × α)} {name : String} :
    name ∈ keys (sortedMembers members) ↔ name ∈ keys members := by
  have h := (foldl_insertSorted members [] List.Pairwise.nil).2 name
  have hnil : name ∉ keys ([] : List (String × α)) := by simp [keys]
  unfold sortedMembers
  rw [h, or_iff_left hnil]

theorem nodup_keys_sortedMembers (members : List (String × α)) :
    (keys (sortedMembers members)).Nodup :=
  (ascending_sortedMembers members).imp fun hlt => ne_of_lt hlt

theorem find?_member_cons (k name : String) (v : α) (ms : List (String × α)) :
    ((k, v) :: ms).find? (fun m => m.1 == name) =
      if k = name then some (k, v) else ms.find? fun m => m.1 == name := by
  by_cases h : k = name
  · rw [if_pos h, List.find?_cons_of_pos (by simpa using h)]
  · rw [if_neg h, List.find?_cons_of_neg (by simpa using h)]

theorem find?_insertSorted (key name : String) (value : α) (ms : List (String × α)) :
    (insertSorted key value ms).find? (fun m => m.1 == name) =
      if key = name then some (key, value) else ms.find? fun m => m.1 == name := by
  induction ms with
  | nil => rw [insertSorted, find?_member_cons]
  | cons m ms ih =>
    obtain ⟨k, v⟩ := m
    unfold insertSorted
    by_cases hlt : key < k
    · rw [if_pos hlt, find?_member_cons]
    · by_cases heq : key = k
      · -- the new member hides the one whose place it takes
        rw [if_neg hlt, if_pos heq, find?_member_cons, find?_member_cons, heq]
        split <;> rfl
      · rw [if_neg hlt, if_neg heq, find?_member_cons, find?_member_cons, ih]
        by_cases hname : k = name
        · rw [if_pos hname, if_pos hname, if_neg (hname ▸ heq)]
        · rw [if_neg hname, if_neg hname]

theorem find?_foldl_insertSorted (members acc : List (String × α)) (name : String) :
    (members.foldl (fun acc m => insertSorted m.1 m.2 acc) acc).find? (fun m => m.1 == name) =
      (members.reverse ++ acc).find? fun m => m.1 == name := by
  -- what is put in later hides what is there, so the members stand in front of it in reverse
  induction members generalizing acc with
  | nil => rfl
  | cons m members ih =>
    rw [List.foldl_cons, ih, List.reverse_cons, List.append_assoc, List.find?_append,
      List.find?_append, find?_insertSorted, List.singleton_append, find?_member_cons]

/-- Of several values of a key the last one is found. -/
theorem find?_sortedMembers (members : List (String × α)) (name : String) :
    (sortedMembers members).find? (fun m => m.1 == name) =
      members.reverse.find? fun m => m.1 == name := by
  unfold sortedMembers
  rw [find?_foldl_insertSorted, List.append_nil]

/-- An object has as many members as were put into it exactly if their keys are different. -/
theorem length_sortedMembers_iff {members : List (String × α)} :
    (sortedMembers members).length = members.length ↔ (keys members).Nodup := by
  have hperm : (keys (sortedMembers members)).Perm (keys members).dedup := by
    rw [List.perm_ext_iff_of_nodup (nodup_keys_sortedMembers members) (List.nodup_dedup _)]
    intro name
    rw [mem_keys_sortedMembers, List.mem_dedup]
  have hlength : (sortedMembers members).length = (keys members).dedup.length := by
    rw [← hperm.length_eq, keys, List.length_map]
  have hsize : members.length = (keys members).length := by rw [keys, List.length_map]
  rw [hlength, hsize]
  constructor
  · intro h
    exact List.dedup_eq_self.mp ((List.dedup_sublist _).eq_of_length h)
  · intro h
    rw [h.dedup]

end Reactors.Json
