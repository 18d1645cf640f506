import GraphQuery.Proofs.Token.Placeholder
import GraphQuery.Proofs.Value.Support
import Mathlib.Data.Set.Function

set_option autoImplicit false

/-! # Parameters of a query

The text of a query and the values that travel beside it are made at different times: names are
given while the text is written, and the values are looked at afterwards. The scope ties them
together: each parameter that the statement mentions has one entry, under its own name, and the
names of the entries are those behind the dollar signs of the text (`Statement.build_params`).

Two orders have to agree: the parameters by first mention in the statement, and the names by
first occurrence behind a dollar sign. They do because naming is injective on the parameters of a
statement, so removing what is repeated commutes with it.
-/

namespace GraphQuery

namespace Scope

/-- What the values of some parameters come to: the JSON form of each value under its name, in
order. -/
theorem paramValues_ok {entries : List (Param × String)} {members : List (String × Json)}
    (h : paramValues entries = .ok members) :
    List.Forall₂ (fun e m => m.1 = e.2 ∧ ∀ context, e.1.value.toJson context = .ok m.2)
      entries members := by
  induction entries generalizing members with
  | nil =>
      obtain rfl := Except.ok.inj h
      exact List.Forall₂.nil
  | cons e es ih =>
      obtain ⟨p, name⟩ := e
      rw [paramValues] at h
      split at h
      · simp at h
      next j hj =>
          cases hrest : paramValues es with
          | error u =>
              rw [hrest] at h
              simp [Except.map] at h
          | ok rest =>
              rw [hrest] at h
              obtain rfl := Except.ok.inj h
              exact List.Forall₂.cons ⟨rfl, p.value.toJson_converts.ok_of_ok hj⟩ (ih hrest)

end Scope

namespace Statement

variable {settings : Settings} {st : Statement}

/-- The parameters that a statement mentions, each once, in the order of their first mentions. -/
def params (st : Statement) : List Param := (st.mentions.filterMap Mention.param?).eraseDups

theorem mem_params {p : Param} : p ∈ st.params ↔ .param p ∈ st.mentions := by
  rw [params, List.mem_eraseDups, Mention.mem_filterMap_param?]

/-- The parameters in the scope that a rendered statement leaves. -/
theorem params_entries_render {text : String} {s' : Scope}
    (h : st.render (Scope.new settings) = (.ok text, s')) :
    s'.params.entries = st.params.map fun p => (p, (st.namesIn settings).param p) := by
  obtain ⟨hall, -⟩ := render_ok h
  rw [namesIn_eq hall]
  exact (Scope.entries_nameAll_new hall).2

/-- The values of a query are those of the parameters of the statement. -/
theorem values_build {q : Query} (h : (st.build settings).result = .ok q) :
    List.Forall₂ (fun p m => m.1 = (st.namesIn settings).param p ∧
      ∀ context, p.value.toJson context = .ok m.2) st.params q.params := by
  obtain ⟨s', hrender, hvalues⟩ := build_eq_ok_iff.mp h
  have hmembers := Scope.paramValues_ok hvalues
  rwa [params_entries_render hrender, List.forall₂_map_left_iff] at hmembers

theorem keys_build {q : Query} (h : (st.build settings).result = .ok q) :
    q.params.map Prod.fst = st.params.map (st.namesIn settings).param := by
  have hsame : List.Forall₂ Eq (q.params.map Prod.fst)
      (st.params.map (st.namesIn settings).param) := by
    rw [List.forall₂_map_left_iff, List.forall₂_map_right_iff]
    exact ((values_build h).imp fun _ _ hm => hm.1).flip
  rwa [List.forall₂_eq_eq_eq] at hsame

/-- The keys of the values are the names of the parameters that the statement mentions. -/
theorem keys_eq_image {q : Query} (h : (st.build settings).result = .ok q) :
    {name | name ∈ q.params.map Prod.fst} =
      (st.namesIn settings).param '' {p | .param p ∈ st.mentions} := by
  ext name
  show name ∈ q.params.map Prod.fst ↔ _
  rw [keys_build h, List.mem_map]
  exact exists_congr fun p => and_congr_left fun _ => mem_params

/-- Different parameters of a statement that was built have different names. -/
theorem param_injOn {q : Query} (h : (st.build settings).result = .ok q) :
    Set.InjOn (st.namesIn settings).param {p | .param p ∈ st.mentions} := by
  intro p hp p' hp' hname
  obtain ⟨s', hrender, -⟩ := build_eq_ok_iff.mp h
  obtain ⟨hall, -⟩ := render_ok hrender
  have hlawful := (Scope.lawful_new settings).nameAll hall
  obtain ⟨name, hgiven⟩ := Scope.exists_nameOf?_of_nameAll hall hp
  obtain ⟨name', hgiven'⟩ := Scope.exists_nameOf?_of_nameAll hall hp'
  rw [namesIn_eq hall, Scope.names_param hgiven, Scope.names_param hgiven'] at hname
  subst hname
  exact hlawful.params.owner_inj hgiven hgiven'

/-- No value has the key of another one. -/
theorem keys_nodup {q : Query} (h : (st.build settings).result = .ok q) :
    (q.params.map Prod.fst).Nodup := by
  obtain ⟨s', hrender, -⟩ := build_eq_ok_iff.mp h
  obtain ⟨hall, -⟩ := render_ok hrender
  have hnames := ((Scope.lawful_new settings).nameAll hall).params.names_nodup
  rw [NameTable.names, params_entries_render hrender, List.map_map] at hnames
  rw [keys_build h]
  exact hnames

/-- The keys of the values are the placeholders of the mentions, each where it first stands. -/
theorem keys_eq_eraseDups {q : Query} (h : (st.build settings).result = .ok q) :
    q.params.map Prod.fst = ((st.namesIn settings).placeholders st.mentions).eraseDups := by
  -- the mentions repeat as the names do
  have hinj : ∀ p ∈ st.mentions.filterMap Mention.param?,
      ∀ p' ∈ st.mentions.filterMap Mention.param?,
        (st.namesIn settings).param p = (st.namesIn settings).param p' → p = p' := by
    intro p hp p' hp' hname
    exact param_injOn h (Mention.mem_filterMap_param?.mp hp) (Mention.mem_filterMap_param?.mp hp')
      hname
  rw [keys_build h, Names.placeholders, NameTable.eraseDups_map hinj, params]

/-- **Every placeholder has its value, and every value its placeholder.** The values of a query that
was built are those of the parameters of the statement, each in its JSON form under the name of the
parameter, in the order of the first mentions. Different parameters have different names, so no
value takes the place of another one. The names are those behind the dollar signs of the text, in
the order in which they first stand there. -/
theorem build_params {q : Query} (hnamed : st.Every Expr.Named)
    (h : (st.build settings).result = .ok q) :
    List.Forall₂ (fun p m => m.1 = (st.namesIn settings).param p ∧
        ∀ context, p.value.toJson context = .ok m.2) st.params q.params ∧
      Set.BijOn (st.namesIn settings).param {p | .param p ∈ st.mentions}
        {name | name ∈ q.params.map Prod.fst} ∧
      (q.params.map Prod.fst).Nodup ∧
      ∃ ts, scan q.text.toList = some ts ∧
        Token.placeholders ts = (st.namesIn settings).placeholders st.mentions ∧
        q.params.map Prod.fst = (Token.placeholders ts).eraseDups := by
  obtain ⟨s', hrender, -⟩ := build_eq_ok_iff.mp h
  obtain ⟨hall, -, htext⟩ := render_ok hrender
  have hscan : scan q.text.toList = some (st.tokens (st.namesIn settings)) := by
    rw [htext, namesIn_eq hall]
    exact (st.scans _ (isBlank_separator settings) hnamed [] clear_nil).scan_eq
  refine ⟨values_build h, ?_, keys_nodup h, _, hscan, st.placeholders_tokens _, ?_⟩
  · rw [keys_eq_image h]
    exact (param_injOn h).bijOn_image
  · rw [st.placeholders_tokens, keys_eq_eraseDups h]

/-- A statement with three parameters of one value:
CREATE, of a node with a parameter that is called as the first generated one would be;
SET, of one property from a list that mentions a second parameter twice, with a third one. -/
def marked : Statement :=
  let first : Param := ⟨0, some "param0", .integer 1⟩
  let second : Param := ⟨1, none, .integer 1⟩
  let third : Param := ⟨2, none, .integer 1⟩
  let node : Node := ⟨0, none, ["Mark"], [("rank", .param first)]⟩
  ⟨[.create (.single ⟨node, []⟩),
    .set (.single ⟨node.toVar, "ranks",
      .list [.param second, .arith .add (.param third) (.param second)]⟩)]⟩

theorem build_params_marked :
    marked.Every Expr.Named ∧
      ∃ q ts, (marked.build .standard).result = .ok q ∧
        q.params.map Prod.fst = ["param0", "param1", "param2"] ∧
        scan q.text.toList = some ts ∧
        q.params.map Prod.fst = (Token.placeholders ts).eraseDups := by
  have hnamed : marked.Every Expr.Named := by
    simp [Statement.Every, Clause.Every, marked, Clause.exprs, Pattern.exprs, Properties.exprs,
      OneOrMore.toList, OneOrMore.single, Expr.Every, Expr.Named]
  have hbuild : ∃ q, (marked.build .standard).result = .ok q ∧
      q.params.map Prod.fst = ["param0", "param1", "param2"] := ⟨_, rfl, rfl⟩
  obtain ⟨q, hq, hkeys⟩ := hbuild
  obtain ⟨-, -, -, ts, hscan, -, hplaceholders⟩ := build_params hnamed hq
  exact ⟨hnamed, q, ts, hq, hkeys, hscan, hplaceholders⟩

end Statement

end GraphQuery
