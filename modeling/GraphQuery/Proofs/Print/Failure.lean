import GraphQuery.Proofs.Draft.Refusal
import GraphQuery.Proofs.Print.Fault
import GraphQuery.Proofs.Print.Parameters
import GraphQuery.Proofs.Scope.Conflict

set_option autoImplicit false

/-! # Which statements fail to build

A build goes through a statement from left to right and stops at the first name that is bound or
empty and at the first literal that cannot be written; the values of parameters come last. Without
going through it one can say that a build fails exactly if one of these faults is anywhere in what
is printed (`Statement.exists_build_iff`).
-/

namespace GraphQuery

namespace Scope

/-! ## The values of parameters

The values are converted one after the other and the first that has no JSON form is reported,
with the kind of the part and the name of the parameter. -/

/-- The values of some named parameters fail at the first one that has no JSON form. -/
theorem paramValues_eq_error_iff {entries : List (Param × String)} {u : Unsupported} :
    paramValues entries = .error u ↔
      (entries.findSome? fun e =>
        e.1.value.unwritable.head?.map (⟨·, "parameter $" ++ e.2⟩)) = some u := by
  induction entries with
  | nil => simp [paramValues]
  | cons e es ih =>
      obtain ⟨p, name⟩ := e
      have hconverts := p.value.toJson_converts
      rw [paramValues, List.findSome?_cons]
      generalize p.value.unwritable = kinds at hconverts
      cases hconverts with
      | ok j h =>
          rw [h]
          simp only [List.head?_nil, Option.map_none, ← ih]
          cases paramValues es <;> simp [Except.map]
      | error kind kinds h =>
          rw [h]
          simp

theorem exists_paramValues_iff {entries : List (Param × String)} :
    (∃ members, paramValues entries = .ok members) ↔ ∀ e ∈ entries, e.1.value.unwritable = [] := by
  have hnone : (∀ e ∈ entries, e.1.value.unwritable = []) ↔
      (entries.findSome? fun e =>
        e.1.value.unwritable.head?.map (⟨·, "parameter $" ++ e.2⟩ : _ → Unsupported)) = none := by
    simp [List.findSome?_eq_none_iff]
  rw [hnone, Option.eq_none_iff_forall_ne_some]
  constructor
  · rintro ⟨members, h⟩ u hu
    rw [paramValues_eq_error_iff.mpr hu] at h
    simp at h
  · intro h
    cases hvalues : paramValues entries with
    | error u => exact absurd (paramValues_eq_error_iff.mp hvalues) (h u)
    | ok members => exact ⟨members, rfl⟩

end Scope

namespace Expr

/-! ## Statements that can be written

What the text asks for is said without an order. Explicit names that look like generated ones are
left out by a condition, since with them it would depend on the order of the mentions which names
are bound. -/

/-- The keys of an expression itself, or of its literal, are not empty. -/
def KeysGiven : Expr → Prop
  | .property _ key => key ≠ ""
  | .map entries => ∀ e ∈ entries, e.1 ≠ ""
  | .literal value => ∀ key ∈ value.keys, key ≠ ""
  | _ => True

/-- A literal has no part that cannot be written. -/
def LiteralWritable : Expr → Prop
  | .literal value => value.unwritable = []
  | _ => True

theorem ownFaults_false_iff {e : Expr} :
    e.OwnFaults (fun _ => False) ↔ e.KeysGiven ∧ e.LiteralWritable := by
  cases e <;> simp [OwnFaults, KeysGiven, LiteralWritable, Value.EachFault,
    List.eq_nil_iff_forall_not_mem]

end Expr

namespace Statement

variable {settings : Settings} {st : Statement}

/-- What the text of a statement asks for: different variables have different explicit names, and so
have different parameters; no name, label, type or key is empty; and every inline literal can be
written. -/
structure Writable (st : Statement) : Prop where
  apart : Mention.Apart st.mentions
  named : ∀ m ∈ st.mentions, m.explicit? ≠ some ""
  schema : ∀ n ∈ st.schemaNames, n.2 ≠ ""
  keys : st.Every Expr.KeysGiven
  literals : st.Every Expr.LiteralWritable

theorem sound_draft_iff (separator : Char) :
    Draft.Sound (st.draft separator) ↔
      (∀ n ∈ st.schemaNames, n.2 ≠ "") ∧ st.Every Expr.KeysGiven ∧
        st.Every Expr.LiteralWritable := by
  rw [Draft.sound_iff, eachFault_draft]
  refine and_congr_right fun _ => ⟨fun h => ⟨?_, ?_⟩, ?_⟩
  · exact h.mono fun e he => (Expr.ownFaults_false_iff.mp he).1
  · exact h.mono fun e he => (Expr.ownFaults_false_iff.mp he).2
  · rintro ⟨hkeys, hliterals⟩ c hc e he
    exact ((hkeys c hc e he).and (hliterals c hc e he)).mono fun _ => Expr.ownFaults_false_iff.mpr

/-- **The text of a statement can be written** exactly if the statement meets what it asks for. -/
theorem exists_render_iff (hnames : Mention.Ungenerated settings st.mentions) :
    (∃ text s', st.render (Scope.new settings) = (.ok text, s')) ↔ st.Writable := by
  unfold render
  rw [Scope.exists_render_iff, sound_draft_iff, mentions_draft]
  constructor
  · rintro ⟨⟨hschema, hkeys, hliterals⟩, s', hall, hgiven⟩
    refine ⟨(Scope.exists_nameAll_iff hnames).mp ⟨s', hall⟩, ?_, hschema, hkeys, hliterals⟩
    intro m hm hempty
    exact hgiven m hm ((Scope.nameOf?_eq_empty_iff hall hm).mpr hempty)
  · intro h
    obtain ⟨s', hall⟩ := (Scope.exists_nameAll_iff hnames).mpr h.apart
    refine ⟨⟨h.schema, h.keys, h.literals⟩, s', hall, fun m hm hempty => ?_⟩
    exact h.named m hm ((Scope.nameOf?_eq_empty_iff hall hm).mp hempty)

/-- The first parameter that a statement mentions with a value that has no JSON form: the kind of
the part that has none, and the name of the parameter. -/
def firstUnwritable? (settings : Settings) (st : Statement) : Option (Value.Kind × String) :=
  st.params.findSome? fun p =>
    p.value.unwritable.head?.map fun kind => (kind, (st.namesIn settings).param p)

theorem exists_values_iff {text : String} {s' : Scope}
    (h : st.render (Scope.new settings) = (.ok text, s')) :
    (∃ members, s'.values = .ok members) ↔
      ∀ p, .param p ∈ st.mentions → p.value.unwritable = [] := by
  rw [Scope.values, Scope.exists_paramValues_iff, params_entries_render h, List.forall_mem_map]
  exact forall_congr' fun p => imp_congr_left mem_params

theorem values_eq_error_iff {text : String} {s' : Scope}
    (h : st.render (Scope.new settings) = (.ok text, s')) {u : Unsupported} :
    s'.values = .error u ↔ ∃ kind name, st.firstUnwritable? settings = some (kind, name) ∧
      u = ⟨kind, "parameter $" ++ name⟩ := by
  have hfirst : (s'.params.entries.findSome? fun e =>
        e.1.value.unwritable.head?.map (⟨·, "parameter $" ++ e.2⟩ : _ → Unsupported)) =
      (st.firstUnwritable? settings).map fun r => ⟨r.1, "parameter $" ++ r.2⟩ := by
    rw [params_entries_render h, firstUnwritable?, List.findSome?_map, List.map_findSome?]
    simp [Function.comp_def]
  rw [Scope.values, Scope.paramValues_eq_error_iff, hfirst, Option.map_eq_some_iff]
  constructor
  · rintro ⟨⟨kind, name⟩, hr, rfl⟩
    exact ⟨kind, name, hr, rfl⟩
  · rintro ⟨kind, name, hr, rfl⟩
    exact ⟨(kind, name), hr, rfl⟩

/-- A fault of a draft is an empty name or a part of an inline literal. -/
theorem fault_of_mem_draft {separator : Char} {e : RenderError}
    (h : .fault e ∈ st.draft separator) :
    (∃ role, e = .emptyName role) ∨ ∃ kind, e = .unsupported ⟨kind, "inline literal"⟩ := by
  have hdraft : Draft.EachFault (fun e => (∃ role, e = .emptyName role) ∨
      ∃ kind, e = .unsupported ⟨kind, "inline literal"⟩) (st.draft separator) := by
    refine (st.eachFault_draft separator).mpr ⟨fun n _ _ => Or.inl ⟨n.1, rfl⟩, ?_⟩
    intro c _ e _
    refine Expr.every_of_forall (fun e => ?_) e
    cases e with
    | property v key => exact fun _ => Or.inl ⟨_, rfl⟩
    | map entries => exact fun _ _ _ => Or.inl ⟨_, rfl⟩
    | literal value =>
        exact ⟨fun _ _ _ => Or.inl ⟨_, rfl⟩, fun kind _ => Or.inr ⟨kind, rfl⟩⟩
    | _ => trivial
  exact hdraft (.fault e) h

/-- What a text reports is no fault of the value of a parameter. -/
theorem render_error_ne {s' : Scope} {e : RenderError}
    (h : st.render (Scope.new settings) = (.error e, s')) (kind : Value.Kind) (name : String) :
    e ≠ .unsupported ⟨kind, "parameter $" ++ name⟩ := by
  rintro rfl
  obtain hfault | hname := Scope.render_error h
  · obtain ⟨role, hempty⟩ | ⟨kind', hliteral⟩ := fault_of_mem_draft hfault
    · simp at hempty
    · -- the contexts begin with different letters
      have hcontext := congrArg Unsupported.context (RenderError.unsupported.inj hliteral)
      have hfirst := congrArg (fun s : String => s.toList.head?) hcontext
      simp at hfirst
  · exact hname

/-- **Exactly the faulty statements fail to build.** Where no explicit name looks like a generated
one, a build succeeds exactly if the text can be written and the values of all parameters that are
mentioned have JSON forms. A fault of the value of a parameter is reported exactly if the text can
be written, and it is that of the first parameter whose value has no JSON form. -/
theorem exists_build_iff (hnames : Mention.Ungenerated settings st.mentions) :
    ((∃ q, (st.build settings).result = .ok q) ↔
      st.Writable ∧ ∀ p, .param p ∈ st.mentions → p.value.unwritable = []) ∧
    ∀ kind name,
      (st.build settings).result = .error (.unsupported ⟨kind, "parameter $" ++ name⟩) ↔
        st.Writable ∧ st.firstUnwritable? settings = some (kind, name) := by
  refine ⟨⟨?_, ?_⟩, fun kind name => ⟨?_, ?_⟩⟩
  · rintro ⟨q, h⟩
    obtain ⟨s', hrender, hvalues⟩ := build_eq_ok_iff.mp h
    exact ⟨(exists_render_iff hnames).mp ⟨_, _, hrender⟩,
      (exists_values_iff hrender).mp ⟨_, hvalues⟩⟩
  · rintro ⟨hwritable, hall⟩
    obtain ⟨text, s', hrender⟩ := (exists_render_iff hnames).mpr hwritable
    obtain ⟨members, hvalues⟩ := (exists_values_iff hrender).mpr hall
    exact ⟨⟨text, members⟩, build_eq_ok_iff.mpr ⟨s', hrender, hvalues⟩⟩
  · intro h
    obtain ⟨s', hrender⟩ | ⟨text, s', u, hrender, hvalues, hu⟩ := build_eq_error_iff.mp h
    -- a fault of the text names no parameter
    · exact absurd rfl (render_error_ne hrender kind name)
    · obtain ⟨kind', name', hfirst, rfl⟩ := (values_eq_error_iff hrender).mp hvalues
      obtain ⟨rfl, hcontext⟩ := Unsupported.mk.inj (RenderError.unsupported.inj hu)
      obtain rfl := String.append_right_inj _ |>.mp hcontext
      exact ⟨(exists_render_iff hnames).mp ⟨_, _, hrender⟩, hfirst⟩
  · rintro ⟨hwritable, hfirst⟩
    obtain ⟨text, s', hrender⟩ := (exists_render_iff hnames).mpr hwritable
    have hvalues := (values_eq_error_iff hrender).mpr ⟨kind, name, hfirst, rfl⟩
    exact build_eq_error_iff.mpr (Or.inr ⟨text, s', _, hrender, hvalues, rfl⟩)

theorem exists_build_iff_acquaintances :
    Mention.Ungenerated .standard acquaintances.mentions ∧
      (∃ q, (acquaintances.build .standard).result = .ok q) ∧ acquaintances.Writable ∧
      ∀ p, .param p ∈ acquaintances.mentions → p.value.unwritable = [] := by
  -- the only explicit name begins with a letter that no prefix begins with
  have hnames : Mention.Ungenerated .standard acquaintances.mentions := by
    have hexplicit : ∀ m ∈ acquaintances.mentions, ∀ name, m.explicit? = some name →
        m.space = .vars ∧ name = "match" := by
      simp [acquaintances, Statement.mentions, Clause.mentions, Pattern.mentions, Node.mentions,
        Properties.mentions, Segment.mentions, Relationship.mentions, Projection.mentions,
        Item.mentions, Item.shownAlias?, Expr.mentions, OneOrMore.toList, OneOrMore.single,
        Mention.explicit?, Mention.space, Node.toVar, Relationship.toVar, Alias.toVar]
    intro m hm name hname stem hstem k hgenerated
    obtain ⟨hspace, rfl⟩ := hexplicit m hm name hname
    rw [hspace] at hstem
    have hfirst := congrArg (fun s : String => s.toList.head?) hgenerated
    obtain rfl | rfl | rfl : stem = "n" ∨ stem = "r" ∨ stem = "v" := by
      simpa [Settings.stems, Settings.standard] using hstem
    all_goals simp [NameTable.generated] at hfirst
  have hbuild : ∃ q, (acquaintances.build .standard).result = .ok q := ⟨_, rfl⟩
  obtain ⟨hwritable, hvalues⟩ := (exists_build_iff hnames).1.mp hbuild
  exact ⟨hnames, hbuild, hwritable, hvalues⟩

end Statement

end GraphQuery
