import GraphQuery.Build.Basic
import GraphQuery.Proofs.Print.Statement

set_option autoImplicit false

/-! # Rendering in two passes

A statement is rendered in one pass: names are given while the text is written. The same comes out
of two passes, one that names the mentions of the statement from left to right and one that prints
it with the table that is left. So the names do not depend on where in the text they are looked up.
-/

namespace GraphQuery

/-- The scope after a rendered expression is the one after naming its mentions, and the text is the
expression printed with the names in that scope. -/
theorem Expr.render_ok {s s' : Scope} {e : Expr} {text : String}
    (h : s.render e.draft = (.ok text, s')) :
    s.nameAll e.mentions = .ok s' ∧ Draft.Sound e.draft ∧ text.toList = e.print s'.names := by
  obtain ⟨hnamed, hsound, htext⟩ := Scope.render_ok h
  rw [e.mentions_draft] at hnamed
  rw [e.text_draft _ hsound] at htext
  exact ⟨hnamed, hsound, htext⟩

namespace Statement

variable {settings : Settings} {st : Statement}

theorem render_ok {s s' : Scope} {text : String} (h : st.render s = (.ok text, s')) :
    s.nameAll st.mentions = .ok s' ∧ Draft.Sound (st.draft s.settings.separator) ∧
      text.toList = st.print s'.names s.settings.separator := by
  obtain ⟨hnamed, hsound, htext⟩ := Scope.render_ok h
  rw [mentions_draft] at hnamed
  rw [text_draft _ _ _ hsound] at htext
  exact ⟨hnamed, hsound, htext⟩

/-! ## Builds

A build fails in one of two ways, at the text or at the values of parameters. What the names of a
statement are is defined by its mentions alone, without any text. -/

/-- A build gives a query if the text can be written and all values have a JSON form. -/
theorem build_eq_ok_iff {q : Query} :
    (st.build settings).result = .ok q ↔
      ∃ s', st.render (Scope.new settings) = (.ok q.text, s') ∧ s'.values = .ok q.params := by
  unfold build
  cases hrender : st.render (Scope.new settings) with
  | mk text s' =>
      cases text with
      | error e => simp
      | ok text =>
          -- the text is there, and the values decide
          cases hvalues : s'.values with
          | error u =>
              simp only [hvalues]
              constructor
              · intro h
                simp at h
              · rintro ⟨t, ht, hparams⟩
                obtain ⟨-, rfl⟩ := Prod.mk.inj ht
                rw [hvalues] at hparams
                simp at hparams
          | ok params =>
              simp only [hvalues]
              constructor
              · intro h
                obtain rfl := Except.ok.inj h
                exact ⟨s', rfl, hvalues⟩
              · rintro ⟨t, ht, hparams⟩
                obtain ⟨htext, rfl⟩ := Prod.mk.inj ht
                rw [hvalues] at hparams
                rw [Except.ok.inj htext, Except.ok.inj hparams]

/-- A build fails where the text cannot be written, or else at a value without a JSON form. -/
theorem build_eq_error_iff {e : RenderError} :
    (st.build settings).result = .error e ↔
      (∃ s', st.render (Scope.new settings) = (.error e, s')) ∨
        ∃ text s' u, st.render (Scope.new settings) = (.ok text, s') ∧ s'.values = .error u ∧
          e = .unsupported u := by
  unfold build
  cases hrender : st.render (Scope.new settings) with
  | mk text s' =>
      cases text with
      | error e' => simp
      | ok text =>
          cases hvalues : s'.values with
          | error u => simp [hvalues, eq_comm]
          | ok params => simp [hvalues]

/-- The scope that a statement leaves, by its mentions alone. -/
def namesIn (settings : Settings) (st : Statement) : Names :=
  match (Scope.new settings).nameAll st.mentions with
  | .ok s => s.names
  | .error _ => (Scope.new settings).names

theorem namesIn_eq {s' : Scope} (h : (Scope.new settings).nameAll st.mentions = .ok s') :
    st.namesIn settings = s'.names := by
  rw [namesIn, h]

/-- The text of a statement that was built is the statement printed with its names. -/
theorem build_ok {q : Query} (h : (st.build settings).result = .ok q) :
    Draft.Sound (st.draft settings.separator) ∧
      q.text.toList = st.print (st.namesIn settings) settings.separator := by
  obtain ⟨s', hrender, -⟩ := build_eq_ok_iff.mp h
  obtain ⟨hnamed, hsound, htext⟩ := render_ok hrender
  rw [namesIn_eq hnamed]
  exact ⟨hsound, htext⟩

/-! ## Two passes

The first pass is `Scope.nameAll` on the mentions, the second one is `Statement.print` with the
names that are left. The theorem puts together what the sections before say of texts, tables and
names. -/

/-- **Rendering in one pass is naming and printing in two.** The scope that is left is the one that
naming the mentions leaves, and the text is the statement printed with the names in it. Different
variables and parameters are written differently; the tables hold them in the order of their first
mentions; the numbers of generated names grow in that order. -/
theorem render_eq_two_passes {text : String} {s' : Scope}
    (h : st.render (Scope.new settings) = (.ok text, s')) :
    (Scope.new settings).nameAll st.mentions = .ok s' ∧
      text = String.ofList (st.print s'.names settings.separator) ∧
      (∀ m ∈ st.mentions, ∀ m' ∈ st.mentions,
        m.written s'.names = m'.written s'.names → m = m') ∧
      s'.vars.entries =
        (st.mentions.filterMap Mention.var?).eraseDups.map (fun v => (v, s'.names.var v)) ∧
      s'.params.entries =
        (st.mentions.filterMap Mention.param?).eraseDups.map (fun p => (p, s'.names.param p)) ∧
      (∃ ks, NameTable.NumberedBy (fun v => settings.prefixFor v.kind) Variable.name? 1
        s'.vars.entries ks) ∧
      ∃ ks, NameTable.NumberedBy (fun _ => settings.paramPrefix) Param.name? 0
        s'.params.entries ks := by
  obtain ⟨hnamed, -, htext⟩ := render_ok h
  have hlawful := (Scope.lawful_new settings).nameAll hnamed
  obtain ⟨hvars, hparams⟩ := Scope.entries_nameAll_new hnamed
  obtain ⟨vs, hvs, -⟩ := hlawful.vars.numbered
  obtain ⟨ps, hps, -⟩ := hlawful.params.numbered
  refine ⟨hnamed, ?_, ?_, hvars, hparams, ⟨vs, hvs⟩, ⟨ps, hps⟩⟩
  · rw [← String.ofList_toList (s := text), htext]
    rfl
  · -- whatever is mentioned has a name in the scope that is left
    intro m hm m' hm' hwritten
    obtain ⟨given, hgiven⟩ := Scope.exists_nameOf?_of_nameAll hnamed hm
    obtain ⟨given', hgiven'⟩ := Scope.exists_nameOf?_of_nameAll hnamed hm'
    exact hlawful.written_inj hgiven hgiven' hwritten

/-- A statement with given and generated names, and with a label and a string that have to be
escaped:
MATCH, from a person by name over one or two steps to another one;
WHERE, with a condition on the other one;
RETURN, with a number under an alias. -/
def acquaintances : Statement :=
  let person : Node := ⟨1, some "match", ["Person"], [("name", .param ⟨1, none, .string "Ann"⟩)]⟩
  let knows : Relationship := ⟨2, none, some "KNOWS", [], some ⟨some 1, some 2⟩⟩
  let other : Node := ⟨3, none, ["it\x60s"], []⟩
  ⟨[.matching false (.single ⟨person, [⟨knows, .right, other⟩]⟩),
    .filter (.not (.compare .equal (.property other.toVar "name") (.literal (.string "O'Hara")))),
    .returning ⟨true, .single ⟨.call "count" false [.var other.toVar], some ⟨4, none⟩⟩⟩]⟩

theorem render_eq_two_passes_acquaintances :
    ∃ text s', acquaintances.render (Scope.new .standard) = (.ok text, s') ∧
      text = String.ofList (acquaintances.print s'.names '\n') ∧
      s'.vars.names = ["match", "r1", "n2", "v3"] := by
  have hrender : ∃ text s', acquaintances.render (Scope.new .standard) = (.ok text, s') ∧
      s'.vars.names = ["match", "r1", "n2", "v3"] := ⟨_, _, rfl, rfl⟩
  obtain ⟨text, s', h, hnames⟩ := hrender
  exact ⟨text, s', h, (render_eq_two_passes h).2.1, hnames⟩

end Statement

end GraphQuery
