import Reactors.Proofs.Accounting
import Reactors.Proofs.Model.Catalogued
import Reactors.Proofs.Model.Places

/-! # Losses

    What each step of binding a model keeps and what it loses.  Every step reports what it loses,
    one report for each loss, and nothing else.  What stands inside of something lost is not
    looked at, so there is no report about it.
-/

namespace Reactors.Model

open Collect (Accounts Settles)

variable {c : Catalog}

/-! ## What reports are about -/

/-- What a fault of a model is about. -/
inductive Subject where
  | options (o : Options)
  /-- A reactor that is not declared. -/
  | reactor (r : Reactor)
  /-- A name that a reactor extends. -/
  | super (r : Reactor) (name : String)
  /-- A circle of reactors, which have names and places. -/
  | circle (members : List (String × Span))
  /-- A term of what is written at a place. -/
  | term (t : Term) (span : Span)
  | assignment (x : Assignment)
  | inst (i : Instance)

/-- The kinds of what faults are about. -/
inductive Subject.Kind where
  | options
  | reactor
  | super
  | circle
  | term
  | assignment
  | inst
  deriving DecidableEq

/-- The kind of what a fault is about. -/
def Subject.kind : Subject → Subject.Kind
  | options _ => .options
  | reactor _ => .reactor
  | super .. => .super
  | circle _ => .circle
  | term .. => .term
  | assignment _ => .assignment
  | inst _ => .inst

/-- How many of a list are of a kind. -/
def Subject.count (k : Subject.Kind) (ss : List Subject) : Nat :=
  ss.countP fun s => s.kind = k

theorem count_cons (k : Subject.Kind) (s : Subject) (ss : List Subject) :
    Subject.count k (s :: ss) = Subject.count k ss + if s.kind = k then 1 else 0 := by
  simp [Subject.count, List.countP_cons]

/-- Everything is of one kind. -/
theorem length_eq_counts (ss : List Subject) :
    ss.length = Subject.count .options ss + Subject.count .reactor ss +
      Subject.count .super ss + Subject.count .circle ss + Subject.count .term ss +
      Subject.count .assignment ss + Subject.count .inst ss := by
  induction ss with
  | nil => rfl
  | cons s ss ih =>
    simp only [count_cons, List.length_cons, ih]
    cases s.kind <;> simp <;> omega

/-- A fault is about this: it carries its names, and the place where it is written. -/
inductive About : Subject → LoadFault → Prop where
  | options {o : Options} {message : String} (h : o.complaint? = some message) :
      About (.options o) (.malformed message .nowhere)
  | reactor (r : Reactor) (first : Span) :
      About (.reactor r) (.duplicateReactor r.name r.span first)
  | super (r : Reactor) (name : String) : About (.super r name) (.unknownReactor name r.span)
  | circle (first : String × Span) (rest : List (String × Span)) :
      About (.circle (first :: rest))
        (.cyclicExtends ((first :: rest).map (·.1) ++ [first.1]) first.2)
  | unit (value : Nat) (text : String) (span : Span) :
      About (.term (.time ⟨value, some text⟩) span) (.unknownTimeUnit text span)
  | unitless (value : Nat) (span : Span) :
      About (.term (.time ⟨value, none⟩) span)
        (.malformed ("time value " ++ toString value ++ " needs a unit") span)
  /-- No parameter of the scope. -/
  | plain (name reactor : String) (span : Span) :
      About (.term (.param (.plain name)) span) (.unknownParameter reactor name span)
  /-- No scope. -/
  | scope (name : String) (span : Span) (fault : ParameterFault) :
      About (.term (.param (.plain name)) span) (.parameter fault)
  /-- No reactor of the name. -/
  | place (name reactor : String) (span : Span) :
      About (.term (.param (.qualified name reactor)) span) (.unknownReactor reactor span)
  /-- No parameter of the reactor. -/
  | qualified (name reactor found : String) (span : Span) :
      About (.term (.param (.qualified name reactor)) span) (.unknownParameter found name span)
  | assignment (x : Assignment) (reactor : String) :
      About (.assignment x) (.unknownParameter reactor x.target x.span)
  /-- No reactor of the name. -/
  | inst (i : Instance) : About (.inst i) (.unknownReactor i.reactor i.span)
  /-- An instance of the name is there already. -/
  | twin (i : Instance) (parent : String) (first : Span) :
      About (.inst i) (.duplicateInstance i.name parent i.span first)

/-! ## Terms -/

theorem findReactor_settles {P : LoadFault → Prop} {name : String} {span : Span}
    (h : P (.unknownReactor name span)) : (findReactor c name span).Settles P := by
  unfold findReactor
  split
  · exact .pure _
  · exact .report h

theorem bindName_settles {P : LoadFault → Prop} {span : Span} {name : String}
    (h : ∀ reactor, P (.unknownParameter reactor name span)) (r : ReactorId) :
    (bindName c span r name).Settles P := by
  refine .lookup_bind fun o _ => ?_
  cases o with
  | some x => exact .pure x.id
  | none => exact .lookup_bind fun d _ => .report (h d.name)

theorem bindDuration_settles (span : Span) (d : Duration) :
    (bindDuration span d).Settles (About (.term (.time d) span)) := by
  obtain ⟨value, unit⟩ := d
  cases unit with
  | some text =>
    simp only [bindDuration]
    split
    · exact .pure _
    · exact .report (.unit value text span)
  | none =>
    simp only [bindDuration]
    split
    · exact .pure _
    · exact .report (.unitless value span)

section terms
variable {scope : Scope} {span : Span}

theorem bindReference_settles (r : Reference) :
    (bindReference c scope span r).Settles (About (.term (.param r) span)) := by
  cases r with
  | plain name =>
    cases scope with
    | ok r => exact bindName_settles (fun reactor => .plain name reactor span) r
    | error fault => exact .report (.scope name span fault)
  | qualified name reactor =>
    refine (findReactor_settles (.place name reactor span)).bind (fun d => ?_) rfl
    exact bindName_settles (fun found => .qualified name reactor found span) d.id

/-- A term is bound, or lost and reported. -/
theorem bindTerm_settles (t : Term) :
    (bindTerm c scope span t).Settles (About (.term t span)) := by
  cases t with
  | time d => exact (bindDuration_settles span d).map _
  | param r => exact (bindReference_settles r).map _
  | _ => exact .pure _

/-- Of terms, those are kept that are bound without a report. -/
theorem bindTerms_sifted (ts : List Term) :
    (bindTerms c scope span ts).Accounts About fun vs ss =>
      Sifted (fun t v inner => (bindTerm c scope span t).Quiet (some v) ∧ inner = [])
        (fun t s => s = .term t span) ts vs ss := by
  induction ts with
  | nil => exact .pure .nil
  | cons t ts ih =>
    refine .settle (bindTerm_settles t) (fun v hv => ?_) fun _ _ => ?_
    · exact ih.bind fun vs ss h => .pure (by rw [List.append_nil]; exact h.whole ⟨hv, rfl⟩)
    · exact ih.bind fun vs ss h => .pure (by rw [List.append_nil]; exact h.leave rfl)

/-- The terms that are kept and the new reports are together as many as were given. -/
theorem bindTerms_length (ts : List Term) :
    (bindTerms c scope span ts).Ensures fun vs es => vs.length + es.length = ts.length := by
  refine Collect.Ensures.mono (bindTerms_sifted ts) fun vs es ⟨ss, hss, hsifted⟩ => ?_
  rw [← hss.length_eq]
  exact hsifted.length_eq fun _ _ _ h => h.2

end terms

/-- Terms are sifted: each is kept as the value that it denotes, or lost. -/
abbrev BoundTerms (c : Catalog) (scope : Option String) (span : Span) :
    List Term → List Value → List Subject → Prop :=
  Sifted (fun t v inner => t.Denotes c scope v ∧ inner = []) fun t s => s = .term t span

theorem bindTerms_accounts (hc : c.Closed) {bound : Scope} {scope : Option String}
    (hscope : ScopeOf c bound scope) (span : Span) (ts : List Term) :
    (bindTerms c bound span ts).Accounts About (BoundTerms c scope span ts) :=
  (bindTerms_sifted ts).mono fun _ _ h =>
    h.imp fun _ _ _ _ ⟨hv, hinner⟩ =>
      have ⟨_, heq, hden⟩ := bindTerm_quiet hc hscope hv
      ⟨Option.some.inj heq ▸ hden, hinner⟩

/-! ## Reactors -/

/-- The reactors that are not declared are lost. -/
theorem declareAll_accounts (rs : List Reactor) :
    (declareAll c rs).Accounts About fun out ss =>
      Sifted (fun r x inner => x.1 = r ∧ inner = []) (fun r s => s = .reactor r) rs out.2 ss := by
  induction rs generalizing c with
  | nil => exact .pure .nil
  | cons r rs ih =>
    unfold declareAll
    split
    · exact .report_bind (.reactor r _) (ih.mono fun _ _ h => h.leave rfl)
    · exact ih.bind fun _ _ h => .pure (by rw [List.append_nil]; exact h.whole ⟨rfl, rfl⟩)

/-- The names that a reactor extends are sifted: each is kept as the reactor of the name, or
    lost. -/
abbrev BoundSupers (c : Catalog) (r : Reactor) :
    List String → List ReactorId → List Subject → Prop :=
  Sifted (fun name s inner => idOf? c name = some s ∧ inner = []) fun name s => s = .super r name

/-- The names that lead nowhere are lost. -/
theorem bindSupers_accounts (hc : c.Closed) (hn : c.names.Nodup) (r : Reactor) (id : ReactorId)
    (names : List String) :
    (bindSupers r.span id c names).Accounts About fun _ ss =>
      BoundSupers c r names (names.filterMap (idOf? c)) ss := by
  induction names generalizing c with
  | nil => exact .pure .nil
  | cons name names ih =>
    unfold bindSupers
    refine .settle (findReactor_settles (.super r name)) (fun d hfound => ?_) fun e hnone => ?_
    · obtain ⟨_, heq, hd⟩ := findReactor_quiet hfound
      cases heq
      have hid : idOf? c name = some d.id := by simp [idOf?, hd]
      refine .lookup_bind fun c₁ h₁ => ?_
      have hc₁ := hc.extend (Catalog.hasReactor_of_some (hc.reactor?_of_named hd)) h₁
      have hnames := Catalog.names_extend h₁
      -- names lead to the same reactors after one is extended
      have ih₁ := ih hc₁ (hnames ▸ hn)
      rw [BoundSupers, idOf?_congr hc hc₁ hn hnames] at ih₁
      rw [List.filterMap_cons_some hid]
      exact ih₁.mono fun _ ss h => h.whole ⟨hid, rfl⟩
    · obtain ⟨hd, _⟩ := (findReactor_ends c name r.span).ensures _ _ hnone
      have hid : idOf? c name = none := by simp [idOf?, ← hd]
      rw [List.filterMap_cons_none hid]
      exact (ih hc hn).mono fun _ _ h => h.leave rfl

/-- Of what the declared reactors extend, the names that lead nowhere are lost. -/
theorem bindAllSupers_accounts (hc : c.Closed) (hn : c.names.Nodup)
    (ds : List (Reactor × ReactorId)) (hds : ∀ x ∈ ds, c.HasReactor x.2) :
    (bindAllSupers c ds).Accounts About fun _ ss =>
      AllKept (fun x supers inner => supers = x.1.supers.filterMap (idOf? c) ∧
          BoundSupers c x.1 x.1.supers supers inner)
        ds (ds.map fun x => x.1.supers.filterMap (idOf? c)) ss := by
  induction ds generalizing c with
  | nil => exact .pure .nil
  | cons x ds ih =>
    have hends := (bindSupers_ends hc hn x.1.span (hds x (by simp)) x.1.supers).ensures
    refine ((bindSupers_accounts hc hn x.1 x.2 x.1.supers).and hends).bind ?_
    intro c₁ ss ⟨hkept, _, hsame, _, _⟩
    have hds₁ : ∀ y ∈ ds, c₁.HasReactor y.2 := fun y hy =>
      (hds y (by simp [hy])).mono (Nat.le_of_eq hsame.size.symm)
    have ih₁ := ih hsame.closed (hsame.names ▸ hn) hds₁
    simp only [BoundSupers, hsame.idOf] at ih₁
    exact ih₁.mono fun _ _ h => .keep ⟨rfl, hkept⟩ h

/-! ## Parameters -/

/-- Every added parameter gets those of the terms of its default that are bound; the others are
    lost. -/
theorem bindDefaults_accounts (hc : c.Closed) (hn : c.names.Nodup) {added : List Added}
    (hadded : ∀ y ∈ added, c.HasReactor y.2.2 ∧ c.HasParameter y.2.1)
    (hnd : (added.map (·.2.1)).Nodup) :
    (bindDefaults c added).Accounts About fun c' ss =>
      ∃ defaults, AllKept (fun y default inner =>
          c'.parameter? y.2.1 = (c.parameter? y.2.1).map (fun x => { x with default }) ∧
          BoundTerms c (nameOf? c y.2.2) y.1.span y.1.default default inner)
        added defaults ss := by
  refine (bindDefaults_each hc hn hadded hnd).mono ?_
  rintro c' _ ⟨-, outs, rfl, hall⟩
  have hthere : ∀ y ∈ added, c.HasReactor y.2.2 := fun y hy => (hadded y hy).1
  clear hadded hnd
  induction hall with
  | nil => exact ⟨[], .nil, [], .nil⟩
  | @cons y out _ _ hfirst _ ih =>
    obtain ⟨hset, c₁, h₁, hrun⟩ := hfirst
    obtain ⟨ss, hss, hterms⟩ := bindTerms_accounts h₁.closed
      (h₁.scopeOf (hthere y (by simp))) y.1.span y.1.default _ _ hrun
    obtain ⟨ts, hts, defaults, hrest⟩ := ih fun z hz => hthere z (by simp [hz])
    refine ⟨ss ++ ts, List.rel_append hss hts, out.1 :: defaults, .keep ⟨hset, ?_⟩ hrest⟩
    exact hterms.imp fun _ _ _ _ ⟨ht, hnil⟩ => ⟨h₁.denotes hc ht, hnil⟩

/-! ## Instances -/

/-- An assignment of an instance of `reactor` is kept: it sets what its target stands for there, to
    those of its terms that are bound, names alone being those of the reactor `scope`. -/
structure Assignment.Kept (c : Catalog) (reactor : String) (scope : Option String)
    (x : Assignment) (y : Reactors.Assignment) (inner : List Subject) : Prop where
  target : c.StandsFor reactor x.target y.target
  values : BoundTerms c scope x.span x.terms y.values inner
  span : y.span = x.span

/-- The assignments of an instance are sifted. -/
abbrev BoundAssignments (c : Catalog) (reactor : String) (scope : Option String) :
    List Assignment → List Reactors.Assignment → List Subject → Prop :=
  Sifted (Assignment.Kept c reactor scope) fun x s => s = .assignment x

/-- The terms of an assignment whose target is not there are not looked at. -/
theorem bindAssignments_accounts (hc : c.Closed) {r : ReactorId} {reactor : String}
    (hr : c.ReactorNamed reactor r) {enclosing : Option ReactorId}
    (henclosing : ∀ s, enclosing = some s → c.HasReactor s) (inst : String)
    (xs : List Assignment) :
    (bindAssignments c r enclosing inst xs).Accounts About
      (BoundAssignments c reactor (outerName c enclosing) xs) := by
  induction xs with
  | nil => exact .pure .nil
  | cons x xs ih =>
    unfold bindAssignments
    refine .settle (bindName_settles (.assignment x) r) (fun q hq => ?_) fun _ _ => ?_
    · obtain ⟨_, heq, hlast⟩ := bindName_quiet hc hq
      cases heq
      refine (bindTerms_accounts hc (scopeOf_assignmentScope henclosing inst x) x.span
        x.terms).bind fun values ss hvalues => ?_
      refine ih.bind fun ys ts h => .pure ?_
      rw [List.append_nil]
      exact .keep ⟨hlast.standsFor hr, hvalues, rfl⟩ h
    · exact ih.mono fun _ _ h => h.leave rfl

/-- The reactor of the instance around a node. -/
def enclosing (a : Assembly) (n : Assembly.Node) : Option ReactorId :=
  n.parent.bind fun i => (a.node? i).map (·.reactor)

/-- An instance is placed as a node: the node has its name and reactor, those of its assignments that
    are bound, and as children those of the instances inside it that are placed. -/
inductive Placed (c : Catalog) (a : Assembly) : Instance → NodeId → List Subject → Prop where
  | node {i : Instance} {k : NodeId} {n : Assembly.Node} {ofAssignments ofChildren : List Subject}
      (found : a.node? k = some n) (name : n.name = i.name)
      (reactor : c.ReactorNamed i.reactor n.reactor) (span : n.span = i.span)
      (assignments : BoundAssignments c i.reactor (outerName c (enclosing a n)) i.assignments
        n.assignments ofAssignments)
      (children : Sifted (Placed c a) (fun j s => s = .inst j) i.children n.children ofChildren) :
      Placed c a i k (ofAssignments ++ ofChildren)

/-- Instances beside one another are sifted: each is placed as a node, or lost with everything
    inside it. -/
abbrev PlacedAll (c : Catalog) (a : Assembly) :
    List Instance → List NodeId → List Subject → Prop :=
  Sifted (Placed c a) fun j s => s = .inst j

/-- Instances are placed inside a node: it has further children, and behind all other nodes there
    are new ones.  The instances are there wherever the new nodes are. -/
structure Grafted (c : Catalog) (a a' : Assembly) (parent : NodeId) (is : List Instance)
    (ks : List NodeId) (ss : List Subject) : Prop where
  size : a.nodes.size ≤ a'.nodes.size
  others : ∀ {j}, a.HasNode j → j ≠ parent → a'.node? j = a.node? j
  around : a'.node? parent = (a.node? parent).map (addChildren ks)
  placed : ∀ b : Assembly, (∀ j, ¬ a.HasNode j → a'.HasNode j → b.node? j = a'.node? j) →
    (b.node? parent).map (·.reactor) = (a.node? parent).map (·.reactor) → PlacedAll c b is ks ss

namespace Grafted

variable {a a' a'' : Assembly} {parent : NodeId} {is js : List Instance} {ks ls : List NodeId}
  {ss ts : List Subject}

/-- Nothing new in the node. -/
theorem unchanged (h : ∀ b, PlacedAll c b is [] ss) : Grafted c a a parent is [] ss where
  size := Nat.le_refl _
  others _ _ := rfl
  around := by
    have hid : addChildren [] = id := by
      funext n
      simp [addChildren]
    rw [hid, Option.map_id, id]
  placed b _ _ := h b

theorem trans (h : Grafted c a a' parent is ks ss) (h' : Grafted c a' a'' parent js ls ts)
    (hparent : a.HasNode parent) : Grafted c a a'' parent (is ++ js) (ks ++ ls) (ss ++ ts) where
  size := Nat.le_trans h.size h'.size
  others hj hne := (h'.others (hj.mono h.size) hne).trans (h.others hj hne)
  around := by
    rw [h'.around, h.around, Option.map_map]
    congr 1
    funext n
    simp [addChildren]
  placed := by
    intro b hb hreactor
    refine (h.placed b ?_ hreactor).append (h'.placed b ?_ ?_)
    · intro j hj hj'
      have hne : j ≠ parent := fun e => hj (e ▸ hparent)
      rw [hb j hj (hj'.mono h'.size), h'.others hj' hne]
    · exact fun j hj => hb j fun h₀ => hj (h₀.mono h.size)
    · rw [hreactor, h.around, Option.map_map]
      rfl

/-- An instance is placed in a new node with what is placed inside the new one. -/
theorem inside {placed : Assembly} {n : Assembly.Node} (hparent : a.node? parent = some n)
    {i : Instance} {r : ReactorId} (hr : c.ReactorNamed i.reactor r)
    {xs : List Reactors.Assignment}
    (hxs : BoundAssignments c i.reactor (outerName c (some n.reactor)) i.assignments xs ss)
    (hplaced : a.addChild? parent i.name r xs i.span = some placed)
    (h : Grafted c placed a' a.nextNode i.children ks ts) :
    Grafted c a a' parent [i] [a.nextNode] (ss ++ ts) := by
  have hthere := Assembly.hasNode_of_some hparent
  have hsize := Assembly.size_addChild hplaced
  have hle : a.nodes.size ≤ placed.nodes.size := by omega
  have hnew : a'.node? a.nextNode =
      some ⟨a.nextNode, i.name, r, some parent, ks, xs, i.span⟩ := by
    rw [h.around, Assembly.node?_addChild hplaced]
    simp [(Assembly.ne_nextNode hthere).symm, addChildren]
  refine ⟨Nat.le_trans hle h.size, ?_, ?_, ?_⟩
  · intro j hj hne
    rw [h.others (hj.mono hle) (Assembly.ne_nextNode hj), Assembly.node?_addChild hplaced]
    simp [Assembly.ne_nextNode hj, hne]
  · rw [h.others (hthere.mono hle) (Assembly.ne_nextNode hthere), Assembly.node?_addChild hplaced]
    simp only [if_neg (Assembly.ne_nextNode hthere), if_true]
    rfl
  · intro b hb hreactor
    have hfound : b.node? a.nextNode = a'.node? a.nextNode :=
      hb _ Assembly.not_hasNode_nextNode (Assembly.hasNode_of_some hnew)
    rw [hnew] at hfound
    have hchildren : PlacedAll c b i.children ks ts := by
      refine h.placed b (fun j hj => hb j fun h₀ => hj (h₀.mono hle)) ?_
      rw [hfound, Assembly.node?_addChild hplaced]
      simp [(Assembly.ne_nextNode hthere).symm]
    -- the reactor of the node around it is the same wherever the new nodes are
    have henclosing : enclosing b ⟨a.nextNode, i.name, r, some parent, ks, xs, i.span⟩ =
        some n.reactor := by
      rw [hparent] at hreactor
      exact hreactor
    exact .single (.node hfound rfl hr rfl (henclosing ▸ hxs) hchildren)

end Grafted

mutual

/-- An instance is placed, or lost for its name or its reactor. -/
theorem place_accounts (hc : c.Closed) (a : Assembly) {parent : NodeId} {n : Assembly.Node}
    (hparent : a.node? parent = some n) (hreactor : c.HasReactor n.reactor) :
    (i : Instance) → (place c parent a i).Accounts About fun a' ss =>
      ∃ ks, Grafted c a a' parent [i] ks ss
  | ⟨name, reactor, assignments, children, span⟩ => by
    have hthere := Assembly.hasNode_of_some hparent
    rw [place, Collect.lookup_bind hparent]
    refine .lookup_bind fun o _ => ?_
    cases o with
    | some first =>
      refine .report_bind (.twin ⟨name, reactor, assignments, children, span⟩ n.name first.span) ?_
      exact .pure ⟨[], .unchanged fun _ => .leave rfl .nil⟩
    | none =>
      refine .settle (findReactor_settles (.inst ⟨name, reactor, assignments, children, span⟩))
        (fun d hfound => ?_) fun _ _ => .pure ⟨[], .unchanged fun _ => .leave rfl .nil⟩
      obtain ⟨_, heq, hd⟩ := findReactor_quiet hfound
      cases heq
      have hnamed := reactorNamed_of_named hc hd
      refine (bindAssignments_accounts hc hnamed
        (fun s hs => by cases hs; exact hreactor) name assignments).bind fun bound ss hbound => ?_
      refine .lookup_bind fun placed hplaced => ?_
      have hnew : placed.node? a.nextNode =
          some ⟨a.nextNode, name, d.id, some parent, [], bound, span⟩ := by
        rw [Assembly.node?_addChild hplaced]
        simp [(Assembly.ne_nextNode hthere).symm]
      refine (placeAll_accounts hc placed hnew hnamed.hasReactor children).mono ?_
      intro a' ts ⟨ks, hinner⟩
      exact ⟨[a.nextNode], hinner.inside (i := ⟨name, reactor, assignments, children, span⟩) hparent
        hnamed hbound hplaced⟩

/-- Each of the instances beside one another is placed or lost. -/
theorem placeAll_accounts (hc : c.Closed) (a : Assembly) {parent : NodeId} {n : Assembly.Node}
    (hparent : a.node? parent = some n) (hreactor : c.HasReactor n.reactor) :
    (is : List Instance) → (placeAll c parent a is).Accounts About fun a' ss =>
      ∃ ks, Grafted c a a' parent is ks ss
  | [] => .pure ⟨[], .unchanged fun _ => .nil⟩
  | i :: is => by
    rw [placeAll]
    refine (place_accounts hc a hparent hreactor i).bind fun a₁ ss ⟨ks, h⟩ => ?_
    have hparent₁ : a₁.node? parent = some (addChildren ks n) := by rw [h.around, hparent]; rfl
    refine (placeAll_accounts hc a₁ hparent₁ hreactor is).mono fun a' ts ⟨ls, h'⟩ => ?_
    exact ⟨ks ++ ls, h.trans h' (Assembly.hasNode_of_some hparent)⟩

end

/-- The instance that contains all others is placed as the root, or lost. -/
theorem placeMain_accounts (hc : c.Closed) (hn : c.names.Nodup) (main : Instance) :
    (placeMain c main).Accounts About fun a ss => PlacedAll c a [main] a.root?.toList ss := by
  have hplaced : (placeMain c main).Accounts About fun a ss =>
      (a = {} ∧ ss = [.inst main]) ∨ Placed c a main ⟨0⟩ ss := by
    unfold placeMain
    refine .settle (findReactor_settles (.inst main)) (fun d hfound => ?_) fun _ _ =>
      .pure (.inl ⟨rfl, rfl⟩)
    obtain ⟨_, heq, hd⟩ := findReactor_quiet hfound
    cases heq
    have hnamed := reactorNamed_of_named hc hd
    refine (bindAssignments_accounts hc hnamed (by simp) main.name main.assignments).bind ?_
    intro bound ss hbound
    have hroot : (({} : Assembly).push main.name d.id none bound main.span).node?
        ({} : Assembly).nextNode =
        some ⟨({} : Assembly).nextNode, main.name, d.id, none, [], bound, main.span⟩ := by
      rw [Assembly.node?_push, if_pos rfl]
    refine (placeAll_accounts hc _ hroot hnamed.hasReactor main.children).mono ?_
    intro a ts ⟨ks, h⟩
    have hnode := h.around
    rw [hroot] at hnode
    refine .inr (.node hnode rfl hnamed rfl hbound ?_)
    exact h.placed a (fun _ _ _ => rfl) (by rw [hnode, hroot]; rfl)
  refine (hplaced.and (placeMain_ends hc hn main).ensures).mono ?_
  intro a ss ⟨hcases, _, hpop, _⟩
  rcases hcases with ⟨rfl, rfl⟩ | h
  · exact .leave rfl .nil
  · have hthere : a.HasNode ⟨0⟩ := by
      cases h with
      | node found => exact Assembly.hasNode_of_some found
    obtain ⟨_, _, _, hroot⟩ := hpop.toRooted.exists_root hthere
    rw [hroot]
    exact .single h

end Reactors.Model
