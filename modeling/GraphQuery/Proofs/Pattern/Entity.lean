import GraphQuery.Pattern.Entity
import GraphQuery.Proofs.Scope.Table

set_option autoImplicit false

/-! # Nodes and relationships call by call

A node is made by calls that give it names, labels and properties in any order and any number, a
relationship by calls that give it names, properties and hops. What comes out depends on the calls
of each kind and their order alone: the name and the hops that were given last, the labels and the
keys in the order in which they were given first, and with each key the value that was given last
(`canonical_build`).
-/

namespace GraphQuery

/-! ## First occurrences

Labels and keys are kept in the order in which they came first. The same operation keeps the
owners of a name table in order, so its lemmas are used here. -/

theorem nodup_eraseDups {α : Type} [DecidableEq α] (xs : List α) : xs.eraseDups.Nodup := by
  induction xs using List.reverseRecOn with
  | nil => exact List.nodup_nil
  | append_singleton xs x ih =>
      rw [NameTable.eraseDups_concat]
      split
      · exact ih
      next hx =>
          refine ih.append (List.nodup_singleton x) (List.disjoint_singleton.mpr ?_)
          rw [List.mem_eraseDups]
          exact fun hmem => hx (List.contains_iff_mem.mpr hmem)

theorem eraseDups_of_nodup {α : Type} [DecidableEq α] {xs : List α} (h : xs.Nodup) :
    xs.eraseDups = xs := by
  induction xs using List.reverseRecOn with
  | nil => rfl
  | append_singleton xs x ih =>
      rw [List.nodup_append] at h
      obtain ⟨hxs, -, hx⟩ := h
      have hnew : ¬xs.contains x = true := fun hmem =>
        hx x (List.contains_iff_mem.mp hmem) x (List.mem_singleton_self x) rfl
      rw [NameTable.eraseDups_concat, if_neg hnew, ih hxs]

/-- The labels, or other things, of which each is added unless it is there, are the first
occurrences. -/
theorem eraseDups_eq_foldl {α : Type} [DecidableEq α] (xs : List α) :
    xs.eraseDups = xs.foldl NameTable.addNew [] := by
  rw [NameTable.foldl_addNew]
  simp

/-! ## Members of one kind

Two sequences of calls may be interleaved differently and still give each part the same sequence
of values. What is read off the members of one kind cannot tell them apart. -/

/-- Two lists hold the same members of each kind in the same order. -/
def SameByKind {α κ : Type} [DecidableEq κ] (kind : α → κ) (xs ys : List α) : Prop :=
  ∀ k, xs.filter (fun x => kind x = k) = ys.filter fun x => kind x = k

/-- What is read off the members of one kind does not depend on the members of other kinds. -/
theorem SameByKind.flatMap_eq {α β κ : Type} [DecidableEq κ] {kind : α → κ} {xs ys : List α}
    (h : SameByKind kind xs ys) (k : κ) {f : α → List β} (hf : ∀ x, kind x ≠ k → f x = []) :
    xs.flatMap f = ys.flatMap f := by
  have hfilter : ∀ zs : List α, (zs.filter fun z => kind z = k).flatMap f = zs.flatMap f := by
    intro zs
    induction zs with
    | nil => rfl
    | cons z zs ih =>
        by_cases hz : kind z = k
        · rw [List.filter_cons_of_pos (by simpa using hz), List.flatMap_cons, ih,
            List.flatMap_cons]
        · rw [List.filter_cons_of_neg (by simpa using hz), ih, List.flatMap_cons, hf z hz,
            List.nil_append]
  rw [← hfilter xs, h k, hfilter ys]

/-! ## Properties

A key that is given again keeps its place and takes the new value. So the keys are first
occurrences, and under each key is the last value; the two together determine the properties. -/

namespace Properties

/-- Properties given one after the other. -/
def putEach (ps : Properties) (given : List (String × Expr)) : Properties :=
  given.foldl (fun ps e => ps.put e.1 e.2) ps

/-- The properties that come of some given ones: each key once, in the order in which the keys were
given first, with what was given last for it. -/
structure Gathers (given : List (String × Expr)) (ps : Properties) : Prop where
  keys_eq : ps.map Prod.fst = (given.map Prod.fst).eraseDups
  last : ∀ e ∈ ps, given.reverse.find? (fun g => g.1 == e.1) = some e

theorem keys_put (key : String) (value : Expr) (ps : Properties) :
    (put key value ps).map Prod.fst = NameTable.addNew (ps.map Prod.fst) key := by
  induction ps with
  | nil => rfl
  | cons e ps ih =>
      obtain ⟨k, v⟩ := e
      rw [put]
      by_cases hk : k = key
      · simp [NameTable.addNew, hk]
      · rw [if_neg hk, List.map_cons, ih]
        by_cases hmem : key ∈ ps.map Prod.fst
        · simp only [NameTable.addNew, if_pos hmem, List.map_cons,
            if_pos (List.mem_cons_of_mem _ hmem)]
        · have hnew : key ∉ k :: ps.map Prod.fst := by
            simpa [Ne.symm hk] using hmem
          simp only [NameTable.addNew, if_neg hmem, List.map_cons, if_neg hnew, List.cons_append]

/-- What is found under a key is the property that was given, if it was given for that key. -/
theorem find?_put (key : String) (value : Expr) (ps : Properties) (k : String) :
    (put key value ps).find? (fun e => e.1 == k) =
      if key = k then some (key, value) else ps.find? fun e => e.1 == k := by
  induction ps with
  | nil =>
      by_cases hk : key = k <;> simp [put, hk]
  | cons e ps ih =>
      obtain ⟨k', v⟩ := e
      rw [put]
      by_cases hkey : k' = key
      · subst hkey
        by_cases hk : k' = k <;> simp [hk]
      · rw [if_neg hkey]
        by_cases hk : k' = k
        · have hother : key ≠ k := fun h => hkey (hk.trans h.symm)
          simp [hk, hother]
        · have hskip : ∀ rest : Properties, List.find? (fun e => e.1 == k) ((k', v) :: rest) =
              rest.find? fun e => e.1 == k :=
            fun rest => List.find?_cons_of_neg (by simpa using hk)
          rw [hskip, hskip, ih]

theorem putEach_concat (ps : Properties) (given : List (String × Expr)) (e : String × Expr) :
    ps.putEach (given ++ [e]) = (ps.putEach given).put e.1 e.2 := by
  simp [putEach]

theorem keys_putEach (ps : Properties) (given : List (String × Expr)) :
    (ps.putEach given).map Prod.fst =
      (given.map Prod.fst).foldl NameTable.addNew (ps.map Prod.fst) := by
  induction given using List.reverseRecOn with
  | nil => rfl
  | append_singleton given e ih =>
      rw [putEach_concat, keys_put, ih, List.map_append, List.foldl_append]
      rfl

/-- What is found under a key is what was given last for it. -/
theorem find?_putEach (given : List (String × Expr)) (k : String) :
    (putEach [] given).find? (fun e => e.1 == k) = given.reverse.find? fun e => e.1 == k := by
  induction given using List.reverseRecOn with
  | nil => rfl
  | append_singleton given e ih =>
      rw [putEach_concat, find?_put, ih, List.reverse_concat]
      by_cases hk : e.1 = k
      · rw [if_pos hk, List.find?_cons_of_pos (by simpa using hk)]
      · rw [if_neg hk, List.find?_cons_of_neg (by simpa using hk)]

/-- **Giving properties one after the other gathers them.** -/
theorem gathers_putEach (given : List (String × Expr)) : Gathers given (putEach [] given) := by
  have hkeys : (putEach [] given).map Prod.fst = (given.map Prod.fst).eraseDups := by
    rw [keys_putEach, eraseDups_eq_foldl]
    rfl
  refine ⟨hkeys, fun e he => ?_⟩
  have hnodup : ((putEach [] given).map Prod.fst).Nodup := hkeys ▸ nodup_eraseDups _
  rw [← find?_putEach]
  exact (NameTable.find?_key_eq_some_iff hnodup).mpr ⟨he, rfl⟩

/-- There is one way to gather some given properties. -/
theorem Gathers.eq {given : List (String × Expr)} {ps ps' : Properties} (h : Gathers given ps)
    (h' : Gathers given ps') : ps = ps' := by
  have hdetermined : ∀ ps : Properties, Gathers given ps →
      ps = (given.map Prod.fst).eraseDups.filterMap
        fun key => given.reverse.find? fun g => g.1 == key := by
    intro ps h
    rw [← h.keys_eq, List.filterMap_map]
    calc ps = ps.filterMap some := List.filterMap_some.symm
      _ = ps.filterMap _ := List.filterMap_congr fun e he => (h.last e he).symm
  rw [hdetermined ps h, hdetermined ps' h']

/-- Gathered properties that are given again are gathered as they are. -/
theorem Gathers.putEach_self {given : List (String × Expr)} {ps : Properties}
    (h : Gathers given ps) : putEach [] ps = ps := by
  have hnodup : (ps.map Prod.fst).Nodup := h.keys_eq ▸ nodup_eraseDups _
  have hreversed : (ps.reverse.map Prod.fst).Nodup := by
    rwa [List.map_reverse, List.nodup_reverse]
  have hself : Gathers ps ps := by
    refine ⟨(eraseDups_of_nodup hnodup).symm, fun e he => ?_⟩
    exact (NameTable.find?_key_eq_some_iff hreversed).mpr ⟨List.mem_reverse.mpr he, rfl⟩
  exact (gathers_putEach ps).eq hself

theorem putEach_append (ps : Properties) (given given' : List (String × Expr)) :
    ps.putEach (given ++ given') = (ps.putEach given).putEach given' := List.foldl_append

end Properties

/-! ## Nodes

A call changes one part of a node and leaves the others alone. Seen part by part, a run of calls
is therefore a fold over what the calls give to that part. -/

namespace Node

/-- What a node can be given. -/
inductive Call where
  | name (name : String)
  | label (label : String)
  | labels (labels : List String)
  | property (key : String) (value : Expr)

inductive Call.Kind where
  | name
  | label
  | property
deriving DecidableEq

namespace Call

/-- Labels are given alone or several at once. -/
def kind : Call → Kind
  | .name _ => .name
  | .label _ | .labels _ => .label
  | .property _ _ => .property

def names : Call → List String
  | .name given => [given]
  | _ => []

def givenLabels : Call → List String
  | .label given => [given]
  | .labels given => given
  | _ => []

def properties : Call → List (String × Expr)
  | .property key value => [(key, value)]
  | _ => []

end Call

/-- The node after a call. -/
def call (n : Node) : Call → Node
  | .name name => n.named name
  | .label label => n.addLabel label
  | .labels labels => n.addLabels labels
  | .property key value => n.setProperty key value

def build (id : Nat) (calls : List Call) : Node := calls.foldl call (blank id)

/-- The calls that give the labels and the properties of a node. -/
def calls (n : Node) : List Call :=
  .labels n.labels :: n.properties.map fun e => .property e.1 e.2

/-- What comes of some calls, whatever their order among the kinds is. -/
structure Made (calls : List Call) (n : Node) : Prop where
  name_eq : n.name? = (calls.flatMap Call.names).getLast?
  labels_eq : n.labels = (calls.flatMap Call.givenLabels).eraseDups
  properties : Properties.Gathers (calls.flatMap Call.properties) n.properties

theorem addLabel_eq (n : Node) (label : String) :
    n.addLabel label = ⟨n.id, n.name?, NameTable.addNew n.labels label, n.properties⟩ := by
  unfold addLabel NameTable.addNew
  split <;> rfl

theorem addLabels_eq (n : Node) (labels : List String) :
    n.addLabels labels = ⟨n.id, n.name?, labels.foldl NameTable.addNew n.labels, n.properties⟩ := by
  induction labels generalizing n with
  | nil => rfl
  | cons label labels ih =>
      show (n.addLabel label).addLabels labels = _
      rw [ih, addLabel_eq]
      rfl

/-- What a call does to each part of a node. -/
theorem call_eq (n : Node) (c : Call) :
    n.call c = ⟨n.id, c.names.getLast?.or n.name?, c.givenLabels.foldl NameTable.addNew n.labels,
      Properties.putEach n.properties c.properties⟩ := by
  cases c with
  | name name | property key value => rfl
  | label label => exact n.addLabel_eq label
  | labels labels => exact n.addLabels_eq labels

/-- What a run of calls does to each part of a node. -/
theorem foldl_call (n : Node) (calls : List Call) :
    calls.foldl call n = ⟨n.id, (calls.flatMap Call.names).getLast?.or n.name?,
      (calls.flatMap Call.givenLabels).foldl NameTable.addNew n.labels,
      Properties.putEach n.properties (calls.flatMap Call.properties)⟩ := by
  induction calls generalizing n with
  | nil => rfl
  | cons c cs ih =>
      rw [List.foldl_cons, ih, call_eq]
      simp only [List.flatMap_cons, List.getLast?_append, Option.or_assoc, List.foldl_append,
        Properties.putEach_append]

theorem build_eq (id : Nat) (calls : List Call) :
    build id calls = ⟨id, (calls.flatMap Call.names).getLast?,
      (calls.flatMap Call.givenLabels).eraseDups,
      Properties.putEach [] (calls.flatMap Call.properties)⟩ := by
  rw [build, foldl_call, eraseDups_eq_foldl]
  simp [blank]

theorem made_build (id : Nat) (calls : List Call) : (build id calls).Made calls := by
  rw [build_eq]
  exact ⟨rfl, rfl, Properties.gathers_putEach _⟩

/-- Only the order of the calls within each kind matters. -/
theorem build_congr {cs cs' : List Call} (h : SameByKind Call.kind cs cs') (id : Nat) :
    build id cs = build id cs' := by
  -- each part is read off the calls of one kind
  have hnames : cs.flatMap Call.names = cs'.flatMap Call.names := by
    refine h.flatMap_eq .name fun c hc => ?_
    cases c <;> first | rfl | exact absurd rfl hc
  have hlabels : cs.flatMap Call.givenLabels = cs'.flatMap Call.givenLabels := by
    refine h.flatMap_eq .label fun c hc => ?_
    cases c <;> first | rfl | exact absurd rfl hc
  have hproperties : cs.flatMap Call.properties = cs'.flatMap Call.properties := by
    refine h.flatMap_eq .property fun c hc => ?_
    cases c <;> first | rfl | exact absurd rfl hc
  rw [build_eq, build_eq, hnames, hlabels, hproperties]

/-- The labels and the properties of a node that was made give the same ones again. -/
theorem build_calls {cs : List Call} {n : Node} (h : n.Made cs) (id : Nat) :
    (build id n.calls).labels = n.labels ∧ (build id n.calls).properties = n.properties := by
  have hlabels : n.labels.eraseDups = n.labels := by
    rw [h.labels_eq, eraseDups_of_nodup (nodup_eraseDups _)]
  have hgiven : n.calls.flatMap Call.givenLabels = n.labels := by
    simp [calls, Call.givenLabels, List.flatMap_map]
  have hproperties : n.calls.flatMap Call.properties = n.properties := by
    simp [calls, Call.properties, List.flatMap_map]
  rw [build_eq, hgiven, hproperties]
  exact ⟨hlabels, h.properties.putEach_self⟩

end Node

/-! ## Relationships

The same for relationships, which have hops in the place of labels. Their type is given when they
are made and never changes. -/

namespace Relationship

/-- What a relationship can be given. -/
inductive Call where
  | name (name : String)
  | property (key : String) (value : Expr)
  | hops (hops : Hops)

inductive Call.Kind where
  | name
  | property
  | hops
deriving DecidableEq

namespace Call

def kind : Call → Kind
  | .name _ => .name
  | .property _ _ => .property
  | .hops _ => .hops

def names : Call → List String
  | .name given => [given]
  | _ => []

def properties : Call → List (String × Expr)
  | .property key value => [(key, value)]
  | _ => []

def givenHops : Call → List Hops
  | .hops given => [given]
  | _ => []

end Call

/-- The relationship after a call. -/
def call (r : Relationship) : Call → Relationship
  | .name name => r.named name
  | .property key value => r.setProperty key value
  | .hops hops => r.setHops hops

/-- The relationship of a type, or of any type, that some calls make. -/
def build (id : Nat) (type? : Option String) (calls : List Call) : Relationship :=
  calls.foldl call (blank id type?)

/-- What comes of some calls, whatever their order among the kinds is. -/
structure Made (type? : Option String) (calls : List Call) (r : Relationship) : Prop where
  type_eq : r.type? = type?
  name_eq : r.name? = (calls.flatMap Call.names).getLast?
  properties : Properties.Gathers (calls.flatMap Call.properties) r.properties
  hops_eq : r.hops? = (calls.flatMap Call.givenHops).getLast?

/-- What a call does to each part of a relationship. -/
theorem call_eq (r : Relationship) (c : Call) :
    r.call c = ⟨r.id, c.names.getLast?.or r.name?, r.type?,
      Properties.putEach r.properties c.properties, c.givenHops.getLast?.or r.hops?⟩ := by
  cases c <;> rfl

/-- What a run of calls does to each part of a relationship. -/
theorem foldl_call (r : Relationship) (calls : List Call) :
    calls.foldl call r = ⟨r.id, (calls.flatMap Call.names).getLast?.or r.name?, r.type?,
      Properties.putEach r.properties (calls.flatMap Call.properties),
      (calls.flatMap Call.givenHops).getLast?.or r.hops?⟩ := by
  induction calls generalizing r with
  | nil => rfl
  | cons c cs ih =>
      rw [List.foldl_cons, ih, call_eq]
      simp only [List.flatMap_cons, List.getLast?_append, Option.or_assoc,
        Properties.putEach_append]

theorem build_eq (id : Nat) (type? : Option String) (calls : List Call) :
    build id type? calls = ⟨id, (calls.flatMap Call.names).getLast?, type?,
      Properties.putEach [] (calls.flatMap Call.properties),
      (calls.flatMap Call.givenHops).getLast?⟩ := by
  rw [build, foldl_call]
  simp [blank]

theorem made_build (id : Nat) (type? : Option String) (calls : List Call) :
    (build id type? calls).Made type? calls := by
  rw [build_eq]
  exact ⟨rfl, rfl, Properties.gathers_putEach _, rfl⟩

/-- Only the order of the calls within each kind matters. -/
theorem build_congr {cs cs' : List Call} (h : SameByKind Call.kind cs cs') (id : Nat)
    (type? : Option String) : build id type? cs = build id type? cs' := by
  have hnames : cs.flatMap Call.names = cs'.flatMap Call.names := by
    refine h.flatMap_eq .name fun c hc => ?_
    cases c <;> first | rfl | exact absurd rfl hc
  have hproperties : cs.flatMap Call.properties = cs'.flatMap Call.properties := by
    refine h.flatMap_eq .property fun c hc => ?_
    cases c <;> first | rfl | exact absurd rfl hc
  have hhops : cs.flatMap Call.givenHops = cs'.flatMap Call.givenHops := by
    refine h.flatMap_eq .hops fun c hc => ?_
    cases c <;> first | rfl | exact absurd rfl hc
  rw [build_eq, build_eq, hnames, hproperties, hhops]

end Relationship

/-! ## Both -/

/-- **Calls make a canonical node or relationship, whatever their order.** The last name and the
last hops are kept, labels and keys stand once in the order in which they were first given, and each
key has its last value. The order of calls of different kinds does not matter, and a node that is
given the labels and properties of another one has the same labels and properties. -/
theorem canonical_build :
    (∀ (id : Nat) (cs : List Node.Call),
      (Node.build id cs).Made cs ∧
        (∀ cs', SameByKind Node.Call.kind cs cs' → Node.build id cs' = Node.build id cs) ∧
        ∀ id', (Node.build id' (Node.build id cs).calls).labels = (Node.build id cs).labels ∧
          (Node.build id' (Node.build id cs).calls).properties = (Node.build id cs).properties) ∧
    ∀ (id : Nat) (type? : Option String) (cs : List Relationship.Call),
      (Relationship.build id type? cs).Made type? cs ∧
        ∀ cs', SameByKind Relationship.Call.kind cs cs' →
          Relationship.build id type? cs' = Relationship.build id type? cs := by
  constructor
  · intro id cs
    refine ⟨Node.made_build id cs, fun cs' h => (Node.build_congr h id).symm, fun id' => ?_⟩
    exact Node.build_calls (Node.made_build id cs) id'
  · intro id type? cs
    exact ⟨Relationship.made_build id type? cs,
      fun cs' h => (Relationship.build_congr h id type?).symm⟩

/-- An actor of whom a label and a property are given twice, with the same calls in another
order. -/
theorem canonical_build_actor :
    let born : Node.Call := .property "born" (.literal (.integer 1964))
    let called (name : String) : Node.Call := .property "name" (.literal (.string name))
    let cs : List Node.Call :=
      [.labels ["Person", "Actor"], called "Keanu", born, .label "Person", called "Carrie",
        .name "a"]
    let cs' : List Node.Call :=
      [.name "a", called "Keanu", .labels ["Person", "Actor"], born, called "Carrie",
        .label "Person"]
    SameByKind Node.Call.kind cs cs' ∧ Node.build 1 cs' = Node.build 1 cs ∧
      (Node.build 1 cs).labels = ["Person", "Actor"] ∧
      (Node.build 1 cs).properties.map Prod.fst = ["name", "born"] ∧
      (Node.build 1 cs).name? = some "a" := by
  intro born called cs cs'
  have hkinds : SameByKind Node.Call.kind cs cs' := by
    intro kind
    cases kind <;> rfl
  obtain ⟨hmade, hcongr, -⟩ := canonical_build.1 1 cs
  refine ⟨hkinds, hcongr cs' hkinds, ?_, ?_, ?_⟩
  · rw [hmade.labels_eq]
    rfl
  · rw [hmade.properties.keys_eq]
    rfl
  · rw [hmade.name_eq]
    rfl

end GraphQuery
