import Mathlib.Data.List.Nodup
import Reactors.Script.Module

/-! # Executing generated modules

    What a generated module does when it runs, seen as assignments to the fields of instances.  A
    constant is what its text says, several terms are a tuple, and a read of a parameter of an
    instance gives what its field holds at that time.  A call of a class makes an instance without
    fields, runs the body of the constructor and has the keywords stored over the fields where the
    body says so.
-/

namespace Reactors.Script

/-! ## Objects -/

/-- What a field holds. -/
inductive Datum where
  /-- Nothing was assigned. -/
  | unset
  /-- The value of a text that reads nothing. -/
  | constant (text : String)
  /-- A tuple. -/
  | tuple (items : List Datum)

/-- The fields of all instances. -/
abbrev Objects : Type := NodeId → String → Datum

namespace Objects

/-- No instance has fields. -/
def empty : Objects := fun _ _ => .unset

/-- Assigns a field of an instance. -/
def put (h : Objects) (i : NodeId) (name : String) (v : Datum) : Objects :=
  fun j n => if j = i ∧ n = name then v else h j n

/-- Takes all fields from an instance. -/
def fresh (h : Objects) (i : NodeId) : Objects :=
  fun j n => if j = i then .unset else h j n

/-- Assigns fields of an instance one after the other. -/
def putAll (h : Objects) (i : NodeId) (fields : List (String × Datum)) : Objects :=
  fields.foldl (fun h f => h.put i f.1 f.2) h

/-- What an expression gives that stands in the class of the instance `self` or outside. -/
def read (h : Objects) (self : NodeId) : Expr → Datum
  | .constant text => .constant text
  | .field name => h self name
  | .own a => h a.node a.name
  | .forwarded a => h a.node a.name

/-- What a list of terms gives: one term gives its value, several give a tuple. -/
def value (h : Objects) (self : NodeId) : List Expr → Datum
  | [t] => h.read self t
  | ts => .tuple (ts.map (h.read self))

/-! ## Statements -/

/-- Runs a line of the constructor of `self`, called with keywords. -/
def runLine (self : NodeId) (keywords : List (String × Datum)) (h : Objects) : Line → Objects
  | .comment _ => h
  | .assign _ name _ terms _ => h.put self name (h.value self terms)
  | .mergeKeywords => h.putAll self keywords

/-- Runs the body of the constructor. -/
def runLines (self : NodeId) (keywords : List (String × Datum)) (h : Objects) (ls : List Line) :
    Objects :=
  ls.foldl (runLine self keywords) h

/-- Assigns a value to its field. -/
def store (self : NodeId) (h : Objects) (e : Entry) : Objects :=
  h.put self e.name (h.value self e.terms)

end Objects

namespace Module

/-- The class that a name stands for: the last one of the name. -/
def class? (m : Module) (name : String) : Option ClassBlock :=
  m.classes.reverse.find? fun b => b.name == name

/-- Runs a statement; a call of a class that is not there fails.  The keywords are evaluated before
    there is an instance. -/
def runStatement (m : Module) (h : Objects) : Statement → Option Objects
  | .construct i _ className keywords => do
    let b ← m.class? className
    let arguments := keywords.map fun e => (e.name, h.value i e.terms)
    return (h.fresh i).runLines i arguments b.skeleton
  | .store i _ e => some (h.store i e)

/-- Runs statements one after the other. -/
def runFrom (m : Module) (h : Objects) (ss : List Statement) : Option Objects :=
  ss.foldlM m.runStatement h

/-- Runs the whole module. -/
def execute (m : Module) : Option Objects := m.runFrom .empty (m.construction.getD [])

end Module

theorem Module.runStatement_construct {m : Module} {className : String} {b : ClassBlock}
    (hb : m.class? className = some b) (h : Objects) (i : NodeId) (path : String)
    (keywords : List Entry) :
    m.runStatement h (.construct i path className keywords) =
      some ((h.fresh i).runLines i (keywords.map fun e => (e.name, h.value i e.terms))
        b.skeleton) := by
  simp [runStatement, hb]

/-! ## Assignments of fields -/

namespace Objects

variable {h h' : Objects} {i j : NodeId} {name other : String} {v : Datum}

@[simp] theorem put_self : h.put i name v i name = v := by
  simp [put]

theorem put_of_ne (hne : j ≠ i ∨ other ≠ name) : h.put i name v j other = h j other := by
  unfold put
  rw [if_neg]
  intro ⟨hj, hname⟩
  subst hj hname
  simp at hne

theorem put_other_node (hne : j ≠ i) : h.put i name v j = h j := by
  funext n
  exact put_of_ne (.inl hne)

theorem fresh_other_node (hne : j ≠ i) : h.fresh i j = h j := by
  funext n
  simp [fresh, hne]

section putAll
variable {fields : List (String × Datum)}

theorem putAll_other_node (hne : j ≠ i) : h.putAll i fields j = h j := by
  induction fields generalizing h with
  | nil => rfl
  | cons f fields ih =>
    show (h.put i f.1 f.2).putAll i fields j = h j
    rw [ih, put_other_node hne]

theorem putAll_of_not_mem (hnot : name ∉ fields.map (·.1)) :
    h.putAll i fields i name = h i name := by
  induction fields generalizing h with
  | nil => rfl
  | cons f fields ih =>
    rw [List.map_cons, List.mem_cons, not_or] at hnot
    show (h.put i f.1 f.2).putAll i fields i name = h i name
    rw [ih hnot.2, put_of_ne (.inr hnot.1)]

/-- A field that is assigned once holds what it was assigned. -/
theorem putAll_of_mem (hnd : (fields.map (·.1)).Nodup) (hmem : (name, v) ∈ fields) :
    h.putAll i fields i name = v := by
  induction fields generalizing h with
  | nil => simp at hmem
  | cons f fields ih =>
    rw [List.map_cons, List.nodup_cons] at hnd
    show (h.put i f.1 f.2).putAll i fields i name = v
    rcases List.mem_cons.mp hmem with rfl | hmem
    · rw [putAll_of_not_mem hnd.1, put_self]
    · exact ih hnd.2 hmem

end putAll

/-! ## Reads -/

theorem value_congr {self : NodeId} {terms : List Expr}
    (hagree : ∀ t ∈ terms, h.read self t = h'.read self t) :
    h.value self terms = h'.value self terms := by
  match terms with
  | [t] => exact hagree t (by simp)
  | [] => rfl
  | t :: u :: ts =>
    show Datum.tuple _ = Datum.tuple _
    rw [List.map_congr_left hagree]

/-- The expression reads no field of the instance `i`. -/
def Outside (i : NodeId) : Expr → Prop
  | .constant _ => True
  | .field _ => False
  | .own a => a.node ≠ i
  | .forwarded a => a.node ≠ i

/-- What is read outside an instance does not depend on the fields of this instance. -/
theorem value_outside {terms : List Expr} (hout : ∀ t ∈ terms, Outside i t)
    (hagree : ∀ j, j ≠ i → h j = h' j) (self : NodeId) :
    h.value self terms = h'.value self terms := by
  apply value_congr
  intro t ht
  have hout' := hout t ht
  cases t with
  | constant text => rfl
  | field name => exact hout'.elim
  | own a =>
    show h a.node a.name = h' a.node a.name
    rw [hagree a.node hout']
  | forwarded a =>
    show h a.node a.name = h' a.node a.name
    rw [hagree a.node hout']

/-- Terms that read nothing give the same wherever they stand. -/
theorem value_constant {terms : List Expr} (hterms : terms.any Expr.isRead = false)
    (self self' : NodeId) : h.value self terms = h'.value self' terms := by
  have hread : ∀ t ∈ terms, h.read self t = h'.read self' t := by
    intro t ht
    have htr := List.any_eq_false.mp hterms t ht
    cases t with
    | constant text => rfl
    | _ => simp [Expr.isRead] at htr
  match terms, hread with
  | [t], hread => exact hread t (by simp)
  | [], _ => rfl
  | t :: u :: ts, hread =>
    show Datum.tuple _ = Datum.tuple _
    rw [List.map_congr_left hread]

/-! ## Stores -/

/-- Stores of values that are read outside an instance are assignments of what they are at first. -/
theorem stores_eq_putAll (es : List Entry) (hout : ∀ e ∈ es, ∀ t ∈ e.terms, Outside i t)
    (hagree : ∀ j, j ≠ i → h j = h' j) :
    es.foldl (store i) h = h.putAll i (es.map fun e => (e.name, h'.value i e.terms)) := by
  induction es generalizing h with
  | nil => rfl
  | cons e es ih =>
    have hvalue : h.value i e.terms = h'.value i e.terms :=
      value_outside (hout e (by simp)) hagree i
    show es.foldl (store i) (h.put i e.name (h.value i e.terms)) =
      (h.put i e.name (h'.value i e.terms)).putAll i _
    rw [hvalue]
    -- the store changes the instance itself alone
    refine ih (fun e he => hout e (by simp [he])) ?_
    intro j hj
    rw [put_other_node hj, hagree j hj]

/-- Assigning more fields changes nothing if the others already hold what they are assigned. -/
theorem putAll_eq_of_subset {es more : List Entry} {f : Entry → Datum}
    (hnd : (more.map (·.name)).Nodup) (hsub : es.Sublist more)
    (hrest : ∀ e ∈ more, e ∉ es → h i e.name = f e) :
    h.putAll i (es.map fun e => (e.name, f e)) = h.putAll i (more.map fun e => (e.name, f e)) := by
  have hkeys : ∀ l : List Entry, (l.map fun e => (e.name, f e)).map (·.1) = l.map (·.name) := by
    intro l
    rw [List.map_map]
    rfl
  have hnd' : (es.map (·.name)).Nodup := hnd.sublist (hsub.map _)
  funext j n
  by_cases hj : j = i
  · subst hj
    by_cases hmore : n ∈ more.map (·.name)
    · obtain ⟨e, he, rfl⟩ := List.mem_map.mp hmore
      have hright : h.putAll j (more.map fun e => (e.name, f e)) j e.name = f e :=
        putAll_of_mem (hkeys more ▸ hnd) (List.mem_map.mpr ⟨e, he, rfl⟩)
      rw [hright]
      -- a field that the shorter list leaves alone holds its value already
      by_cases hes : e ∈ es
      · exact putAll_of_mem (hkeys es ▸ hnd') (List.mem_map.mpr ⟨e, hes, rfl⟩)
      · rw [putAll_of_not_mem, hrest e he hes]
        rw [hkeys]
        intro hmem
        obtain ⟨e', he', hname⟩ := List.mem_map.mp hmem
        exact hes (List.inj_on_of_nodup_map hnd (hsub.subset he') he hname ▸ he')
    · have hes : n ∉ es.map (·.name) := fun hmem => hmore ((hsub.map _).subset hmem)
      rw [putAll_of_not_mem (hkeys es ▸ hes), putAll_of_not_mem (hkeys more ▸ hmore)]
  · rw [putAll_other_node hj, putAll_other_node hj]

end Objects

end Reactors.Script
