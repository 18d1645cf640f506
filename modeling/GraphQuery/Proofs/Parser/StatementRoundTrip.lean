import GraphQuery.Proofs.Parser.RoundTrip
import GraphQuery.Proofs.Parser.Statement
import GraphQuery.Proofs.Token.Statement

set_option autoImplicit false

/-! # Reading back statements

Reading the tokens of a statement gives its tree. Since the text of a statement that was built scans
to its tokens, the text determines the tree (`Statement.tree_eq_of_text_eq`).
-/

namespace GraphQuery

/-! ## What stands behind a member of a clause

A member of a clause is followed by a comma, by the keyword of the next clause or by nothing.
None of the three can be taken for more of the member. -/

/-- Nothing, or the keyword of another clause. -/
def ClauseEnd (rest : List Token) : Prop :=
  ∀ t ∈ rest.head?, ∃ k : Keyword, t ∈ (Token.words k.words).head?

/-- Nothing, a comma, or the keyword of another clause. -/
def MemberEnd (rest : List Token) : Prop :=
  ∀ t ∈ rest.head?, t = .mark .comma ∨ ∃ k : Keyword, t ∈ (Token.words k.words).head?

theorem ClauseEnd.memberEnd {rest : List Token} (h : ClauseEnd rest) : MemberEnd rest :=
  fun t ht => Or.inr (h t ht)

theorem memberEnd_comma (rest : List Token) : MemberEnd (.mark .comma :: rest) :=
  fun _ ht => Or.inl (Option.some.inj ht).symm

theorem clauseEnd_nil : ClauseEnd [] := by simp [ClauseEnd]

/-- No keyword goes on with an expression or a member of a clause. -/
theorem Keyword.head_words {k : Keyword} {t : Token} (h : t ∈ (Token.words k.words).head?) :
    t.level? = none ∧ t.isWord "as" = false ∧ t.isWord "desc" = false ∧ ∀ m, t ≠ .mark m := by
  cases k <;> (obtain rfl := Option.some.inj h; exact ⟨rfl, rfl, rfl, by simp [Token.keyword]⟩)

namespace MemberEnd

variable {rest : List Token}

theorem stops (h : MemberEnd rest) (g : Grammar) : Stops g .or rest := by
  intro t ht q hq
  have hlevel : t.level? = none := by
    rcases h t ht with rfl | ⟨k, hk⟩
    · rfl
    · exact (Keyword.head_words hk).1
  rw [hlevel] at hq
  simp at hq

theorem not_isWord (h : MemberEnd rest) :
    ∀ t ∈ rest.head?, t.isWord "as" = false ∧ t.isWord "desc" = false := by
  intro t ht
  rcases h t ht with rfl | ⟨k, hk⟩
  · exact ⟨rfl, rfl⟩
  · exact ⟨(Keyword.head_words hk).2.1, (Keyword.head_words hk).2.2.1⟩

theorem not_beginsArrow (h : MemberEnd rest) : Token.beginsArrow rest = false := by
  cases rest with
  | nil => rfl
  | cons t ts =>
      rcases h t rfl with rfl | ⟨k, hk⟩
      · rfl
      · have hmark := (Keyword.head_words hk).2.2.2
        simp [Token.beginsArrow, hmark]

end MemberEnd

/-- Lists are read member by member. -/
theorem Reader.commas_commas {α β : Type} {item : Reader α} {f : β → List Token} {tree : β → α}
    {xs : List β} (hne : xs ≠ [])
    (h : ∀ x ∈ xs, ∀ rest, MemberEnd rest → item (f x ++ rest) = some (tree x, rest))
    {rest : List Token} (hrest : ClauseEnd rest) :
    item.commas (Token.commas (xs.map f) ++ rest) = some (xs.map tree, rest) := by
  induction xs with
  | nil => exact absurd rfl hne
  | cons x xs ih =>
      obtain ⟨hx, hxs⟩ := List.forall_mem_cons.mp h
      cases xs with
      | nil =>
          -- behind the last member there is nothing, or a keyword, which is no comma
          have hcomma : Token.after .comma rest = none := by
            refine Token.after_eq_none fun t ht => ?_
            obtain ⟨k, hk⟩ := hrest t ht
            exact (Keyword.head_words hk).2.2.2 _
          rw [commas, List.map_singleton, Token.commas, List.intercalate_singleton,
            hx rest hrest.memberEnd]
          simp [hcomma]
      | cons y ys =>
          have hys := ih (List.cons_ne_nil _ _) hxs
          rw [List.map_cons, Token.commas] at hys
          rw [commas, List.map_cons, List.map_cons, Token.commas, List.intercalate_cons_cons,
            List.append_assoc, List.append_assoc, List.singleton_append,
            hx _ (memberEnd_comma _)]
          simp [hys]

theorem OneOrMore.toList_ne_nil {α : Type} (xs : OneOrMore α) : xs.toList ≠ [] :=
  List.cons_ne_nil _ _

theorem Token.readName_ofName (raw : String) (ts : List Token) :
    readName (ofName raw :: ts) = some (raw, ts) := rfl

theorem Token.readName_ofBinding (raw : String) (ts : List Token) :
    readName (ofBinding raw :: ts) = some (raw, ts) := rfl

/-! ## Patterns

Each part of a pattern is read back in front of whatever may follow it there. So the lemmas go
from the end of a node or relationship to its beginning: properties, hops, type or labels, name. -/

/-- Expressions that can all be read back. -/
def Legible (es : List Expr) : Prop := ∀ e ∈ es, e.Every Expr.Legible

variable {g : Grammar} {n : Names}

theorem Grammar.parseProperties_tokens {ps : Properties} (h : Legible ps.exprs) {rest : List Token}
    (hrest : ∀ t ∈ rest.head?, t ≠ .mark .braceOpen) :
    g.parseProperties (Properties.tokens n ps ++ rest) = some (Properties.tree n ps, rest) := by
  unfold Properties.tokens
  split
  next hempty =>
      have hnone : Token.after .braceOpen rest = none := Token.after_eq_none hrest
      rw [List.nil_append, parseProperties, hnone, Properties.tree, List.isEmpty_iff.mp hempty]
      rfl
  next hne =>
      have hentries : ∀ e ∈ ps, Grammar.ReadsAs g (e.2.tokens n) (e.2.tree n) :=
        fun e he => Expr.readsAs g n (h e.2 (List.mem_map_of_mem he))
      rw [Token.braces, List.cons_append, List.append_assoc, List.singleton_append, parseProperties,
        Token.after_mark]
      exact Grammar.parseSomeEntries_commas (by simpa using hne) hentries

/-- A property list begins with a brace. -/
theorem Properties.head?_tokens {ps : Properties} {rest : List Token} {p : Token → Prop}
    (hbrace : p (.mark .braceOpen)) (hrest : ∀ t ∈ rest.head?, p t) :
    ∀ t ∈ (ps.tokens n ++ rest).head?, p t := by
  unfold tokens
  split
  · exact hrest
  · intro t ht
    rw [← Option.some.inj ht]
    exact hbrace

namespace Token

theorem readLabels_flatMap (labels : List String) {rest : List Token}
    (hrest : ∀ t ∈ rest.head?, t ≠ .mark .colon) :
    readLabels ((labels.flatMap fun l => [.mark .colon, ofName l]) ++ rest) = (labels, rest) := by
  induction labels with
  | nil =>
      rw [List.flatMap_nil, List.nil_append]
      unfold readLabels
      split
      · exact absurd rfl (hrest _ rfl)
      · rfl
  | cons l ls ih =>
      rw [List.flatMap_cons, List.append_assoc, List.cons_append, List.singleton_append, ofName,
        readLabels, ih]

theorem readType_elim (type? : Option String) {rest : List Token}
    (hrest : ∀ t ∈ rest.head?, t ≠ .mark .colon) :
    readType (type?.elim [] (fun type => [.mark .colon, ofName type]) ++ rest) = (type?, rest) := by
  cases type? with
  | some type => rfl
  | none =>
      rw [Option.elim, List.nil_append]
      unfold readType
      split
      · exact absurd rfl (hrest _ rfl)
      · rfl

end Token

namespace Hops

theorem readCount_count (k : Nat) (ts : List Token) : readCount (count k :: ts) = (some k, ts) := by
  rw [count, readCount, Number.ofDigitChars_naturalNumeral]

/-- What stands behind a range of hops is no number and no part of a range. -/
theorem read_tokens (h : Hops) {rest : List Token}
    (hrest : ∀ t ∈ rest.head?, (∀ text, t ≠ .number text) ∧ t ≠ .mark .dots) :
    read (h.tokens ++ rest) = (some h, rest) := by
  have hnumber : readCount rest = (none, rest) := by
    unfold readCount
    split
    · exact absurd rfl ((hrest _ rfl).1 _)
    · rfl
  have hdots : Token.after .dots rest = none := Token.after_eq_none fun t ht => (hrest t ht).2
  have hfirst : ∀ ts, readCount (.mark .dots :: ts) = (none, .mark .dots :: ts) := fun _ => rfl
  obtain ⟨_ | least, _ | most⟩ := h
  · simp [tokens, read, hnumber, hdots]
  · simp [tokens, read, hfirst, readCount_count]
  · simp [tokens, read, readCount_count, hnumber]
  · -- a single number is written for two equal bounds, and is read as both
    by_cases hbounds : least = most
    · simp [tokens, read, readCount_count, hbounds, hdots]
    · simp [tokens, read, readCount_count, hbounds]

theorem read_elim (hops? : Option Hops) {rest : List Token}
    (hrest : ∀ t ∈ rest.head?, (∀ text, t ≠ .number text) ∧ t ≠ .mark .dots ∧ t ≠ .mark .star) :
    read (hops?.elim [] tokens ++ rest) = (hops?, rest) := by
  cases hops? with
  | some hops => exact hops.read_tokens fun t ht => ⟨(hrest t ht).1, (hrest t ht).2.1⟩
  | none =>
      have hstar : Token.after .star rest = none :=
        Token.after_eq_none fun t ht => (hrest t ht).2.2
      rw [Option.elim, List.nil_append, read, hstar]

/-- A range of hops begins with a star. -/
theorem head?_elim (hops? : Option Hops) {rest : List Token} {p : Token → Prop}
    (hstar : p (.mark .star)) (hrest : ∀ t ∈ rest.head?, p t) :
    ∀ t ∈ (hops?.elim [] tokens ++ rest).head?, p t := by
  cases hops? with
  | none => exact hrest
  | some hops =>
      have hhead : (hops.tokens ++ rest).head? = some (.mark .star) := by
        obtain ⟨_ | least, _ | most⟩ := hops
        · rfl
        · rfl
        · rfl
        · simp only [tokens]
          split <;> rfl
      intro t ht
      rw [Option.elim, hhead] at ht
      rw [← Option.some.inj ht]
      exact hstar

end Hops

theorem Grammar.parseNode_tokens {x : Node} (h : Legible (Properties.exprs x.properties))
    (rest : List Token) : g.parseNode (x.tokens n ++ rest) = some (x.tree n, rest) := by
  have hcolon : ∀ t ∈ (Properties.tokens n x.properties ++ .mark .parenClose :: rest).head?,
      t ≠ .mark .colon := Properties.head?_tokens (by decide) (by simp)
  have hlabels := Token.readLabels_flatMap x.labels hcolon
  have hproperties : g.parseProperties (Properties.tokens n x.properties ++
      .mark .parenClose :: rest) =
        some (Properties.tree n x.properties, .mark .parenClose :: rest) :=
    Grammar.parseProperties_tokens h (by simp)
  rw [Node.tokens, Token.parens, List.cons_append, List.append_assoc, List.cons_append,
    List.append_assoc, List.singleton_append, parseNode, Token.after_mark]
  simp only [Option.bind_eq_bind, Option.bind_some, Token.readName_ofBinding, hlabels, hproperties,
    Token.after_mark]
  rfl

theorem Grammar.parseRelationship_tokens {r : Relationship}
    (h : Legible (Properties.exprs r.properties)) (rest : List Token) :
    g.parseRelationship (r.tokens n ++ rest) = some (r.tree n, rest) := by
  have hhops : ∀ t ∈ (Properties.tokens n r.properties ++ .mark .bracketClose :: rest).head?,
      (∀ text, t ≠ .number text) ∧ t ≠ .mark .dots ∧ t ≠ .mark .star :=
    Properties.head?_tokens (by simp) (by simp)
  have hcolon : ∀ t ∈ (r.hops?.elim [] Hops.tokens ++ (Properties.tokens n r.properties ++
      .mark .bracketClose :: rest)).head?, t ≠ .mark .colon :=
    Hops.head?_elim r.hops? (by decide) (Properties.head?_tokens (by decide) (by simp))
  have hproperties : g.parseProperties (Properties.tokens n r.properties ++
      .mark .bracketClose :: rest) =
        some (Properties.tree n r.properties, .mark .bracketClose :: rest) :=
    Grammar.parseProperties_tokens h (by simp)
  rw [Relationship.tokens, Token.brackets, List.cons_append, List.append_assoc, List.cons_append,
    List.append_assoc, List.append_assoc, List.singleton_append, parseRelationship,
    Token.after_mark]
  simp only [Option.bind_eq_bind, Option.bind_some, Token.readName_ofBinding,
    Token.readType_elim r.type? hcolon, Hops.read_elim r.hops? hhops, hproperties,
    Token.after_mark]
  rfl

/-- The marks of an arrow give its direction. -/
theorem Direction.ofMarks_marks (d : Direction) : ofMarks d.markBefore d.markAfter = some d := by
  cases d <;> rfl

theorem Direction.beginsArrow_markBefore (d : Direction) (ts : List Token) :
    Token.beginsArrow (.mark d.markBefore :: ts) = true := by
  cases d <;> rfl

theorem Grammar.parseSegment_tokens {s : Segment} (h : Legible s.exprs) (rest : List Token) :
    g.parseSegment (s.tokens n ++ rest) = some (s.tree n, rest) := by
  obtain ⟨hrelationship, hnode⟩ := List.forall_mem_append.mp h
  -- the direction is known only when both marks of the arrow are read
  rw [Segment.tokens, List.cons_append, List.append_assoc, List.cons_append, parseSegment,
    Token.readMark]
  simp only [Option.bind_eq_bind, Option.bind_some, parseRelationship_tokens hrelationship,
    Token.readMark, Direction.ofMarks_marks, parseNode_tokens hnode]
  rfl

/-- Segments are read as long as an arrow follows. -/
theorem Grammar.parseSegments_flatMap {ss : List Segment} (h : Legible (ss.flatMap Segment.exprs))
    {rest : List Token} (hrest : Token.beginsArrow rest = false) :
    g.parseSegments (ss.flatMap (Segment.tokens n) ++ rest) =
      some (ss.map (Segment.tree n), rest) := by
  induction ss with
  | nil => rw [List.flatMap_nil, List.nil_append, parseSegments, hrest]; rfl
  | cons s ss ih =>
      rw [List.flatMap_cons] at h
      obtain ⟨hs, hss⟩ := List.forall_mem_append.mp h
      have harrow : Token.beginsArrow
          (s.tokens n ++ (ss.flatMap (Segment.tokens n) ++ rest)) = true :=
        s.direction.beginsArrow_markBefore _
      rw [List.flatMap_cons, List.append_assoc, parseSegments, harrow]
      simp only [if_true, Option.bind_eq_bind, parseSegment_tokens hs, Option.bind_some, ih hss]
      rfl

theorem Grammar.parsePattern_tokens {p : Pattern} (h : Legible p.exprs) {rest : List Token}
    (hrest : Token.beginsArrow rest = false) :
    g.parsePattern (p.tokens n ++ rest) = some (p.tree n, rest) := by
  obtain ⟨hstart, hsegments⟩ := List.forall_mem_append.mp h
  rw [Pattern.tokens, List.append_assoc, parsePattern, Grammar.parseNode_tokens hstart]
  simp only [Option.bind_eq_bind, Option.bind_some, parseSegments_flatMap hsegments hrest]
  rfl

/-! ## Parts of clauses

The parts hold expressions, which are read back in front of a comma or a keyword as they are in
front of a closing bracket. -/

/-- An expression in a clause is read up to the end of its member. -/
theorem Grammar.parseAt_tokens {e : Expr} (h : e.Every Expr.Legible) {rest : List Token}
    (hrest : Stops g .or rest) : parseAt g .or (e.tokens n ++ rest) = some (e.tree n, rest) :=
  (Expr.readsAs g n h).parse rest hrest

/-- The word before an alias stops every expression. -/
theorem stops_alias (a : Alias) (ts : List Token) : Stops g .or (a.tokens n ++ ts) :=
  stops_of_level?_eq_none (by decide) _ _ _

theorem Grammar.parseItem_tokens {i : Item} (h : i.expr.Every Expr.Legible) {rest : List Token}
    (hrest : MemberEnd rest) : g.parseItem (i.tokens n ++ rest) = some (i.tree n, rest) := by
  rw [Item.tokens, Item.tree, List.append_assoc, parseItem]
  cases i.shownAlias? with
  | none =>
      have halias : Token.readWord "as" rest = (false, rest) :=
        Token.readWord_of_not fun t ht => (hrest.not_isWord t ht).1
      rw [Option.elim, List.nil_append, Grammar.parseAt_tokens h (hrest.stops g)]
      simp only [Option.bind_eq_bind, Option.bind_some, Token.readNameAfter, halias]
      rfl
  | some a =>
      rw [Option.elim, Grammar.parseAt_tokens h (stops_alias a rest)]
      rfl

/-- The first item of a projection is not taken for a `DISTINCT`. -/
theorem Projection.not_isWord_items {items : List Item} (hne : items ≠ [])
    (h : ∀ i ∈ items, i.expr.Every Expr.Legible) (rest : List Token) :
    ∀ t ∈ (Token.commas (items.map (Item.tokens n)) ++ rest).head?,
      t.isWord "distinct" = false := by
  obtain ⟨i, is, rfl⟩ := List.exists_cons_of_ne_nil hne
  obtain ⟨first, others, hfirst, hleads, -⟩ := i.expr.begins_tokens n (h i (List.mem_cons_self ..))
  obtain ⟨more, hmore⟩ := Token.exists_commas_cons (Item.tokens n) i is
  intro t ht
  rw [hmore, Item.tokens, hfirst] at ht
  obtain rfl := Option.some.inj ht
  exact hleads.not_isWord (by decide) (by decide)

theorem Grammar.parseProjection_tokens {p : Projection}
    (h : ∀ e ∈ p.items.toList.map Item.expr, e.Every Expr.Legible) {rest : List Token}
    (hrest : ClauseEnd rest) : g.parseProjection (p.tokens n ++ rest) = some (p.tree n, rest) := by
  have hne : p.items.toList ≠ [] := p.items.toList_ne_nil
  have hitem : ∀ i ∈ p.items.toList, i.expr.Every Expr.Legible :=
    fun i hi => h i.expr (List.mem_map_of_mem hi)
  have hitems := Reader.commas_commas hne
    (fun i hi _ => Grammar.parseItem_tokens (g := g) (n := n) (hitem i hi)) hrest
  have hdistinct : Token.readWord "distinct"
        ((if p.distinct then [Token.keyword "DISTINCT"] else []) ++
          (Token.commas (p.items.toList.map (Item.tokens n)) ++ rest)) =
      (p.distinct, Token.commas (p.items.toList.map (Item.tokens n)) ++ rest) := by
    cases p.distinct with
    | true => exact Token.readWord_of_isWord (by decide) _
    | false => exact Token.readWord_of_not (Projection.not_isWord_items hne hitem rest)
  rw [Projection.tokens, List.append_assoc, parseProjection, hdistinct]
  simp only [Option.bind_eq_bind, hitems, Option.bind_some]
  rfl

theorem Grammar.parseSortItem_tokens {i : SortItem} (h : i.expr.Every Expr.Legible)
    {rest : List Token} (hrest : MemberEnd rest) :
    g.parseSortItem (i.tokens n ++ rest) = some (i.tree n, rest) := by
  have hstops : ∀ ts, Stops g .or (.keyword "DESC" :: ts) :=
    stops_of_level?_eq_none (by decide) _ _
  rw [SortItem.tokens, SortItem.tree, List.append_assoc, parseSortItem]
  cases i.descending with
  | true =>
      rw [if_pos rfl, List.singleton_append, Grammar.parseAt_tokens h (hstops rest)]
      rfl
  | false =>
      have hdesc : Token.readWord "desc" rest = (false, rest) :=
        Token.readWord_of_not fun t ht => (hrest.not_isWord t ht).2
      rw [if_neg Bool.false_ne_true, List.nil_append, Grammar.parseAt_tokens h (hrest.stops g)]
      simp only [Option.bind_eq_bind, Option.bind_some, hdesc]

theorem Grammar.parseAssignment_tokens {a : Assignment} (h : a.value.Every Expr.Legible)
    {rest : List Token} (hrest : MemberEnd rest) :
    g.parseAssignment (a.tokens n ++ rest) = some (a.tree n, rest) := by
  rw [Assignment.tokens, List.append_assoc, List.cons_append, List.cons_append,
    List.singleton_append, List.cons_append, parseAssignment, Token.readName_ofBinding]
  simp only [Option.bind_eq_bind, Option.bind_some, Token.after_mark, Token.readName_ofName,
    Grammar.parseAt_tokens h (hrest.stops g)]
  rfl

/-! ## Clauses

The keyword says which reader is used, and each reader finds the members of its clause. -/

theorem Keyword.read_words (k : Keyword) (ts : List Token) :
    Keyword.read (Token.words k.words ++ ts) = some (k, ts) := by
  cases k <;> rfl

namespace Grammar

theorem commas_patterns {patterns : OneOrMore Pattern}
    (h : Legible (patterns.toList.flatMap Pattern.exprs)) {rest : List Token}
    (hrest : ClauseEnd rest) :
    Reader.commas g.parsePattern (Token.commas (patterns.toList.map (Pattern.tokens n)) ++ rest) =
      some (patterns.toList.map (Pattern.tree n), rest) := by
  refine Reader.commas_commas patterns.toList_ne_nil (fun p hp rest hrest => ?_) hrest
  have hp' : Legible p.exprs := fun e he => h e (List.mem_flatMap.mpr ⟨p, hp, he⟩)
  exact parsePattern_tokens hp' hrest.not_beginsArrow

theorem commas_targets (targets : OneOrMore Variable) {rest : List Token}
    (hrest : ClauseEnd rest) :
    Reader.commas Token.readName
        (Token.commas (targets.toList.map fun v => [.ofBinding (n.var v)]) ++ rest) =
      some (targets.toList.map n.var, rest) :=
  Reader.commas_commas targets.toList_ne_nil (fun _ _ _ _ => rfl) hrest

/-- Behind its keyword a clause is read to its end. -/
theorem parseBody_tokens {c : Clause} (h : c.Every Expr.Legible) {rest : List Token}
    (hrest : ClauseEnd rest) :
    g.parseBody c.keyword (c.bodyTokens n ++ rest) = some (c.tree n, rest) := by
  have hstops := hrest.memberEnd.stops g
  -- each clause by the reader for its parts, in front of another clause
  cases c with
  | matching optional patterns =>
      have hpatterns := commas_patterns (g := g) (n := n) h hrest
      cases optional <;>
        simp only [Clause.keyword, Bool.false_eq_true, if_true, if_false, Clause.bodyTokens,
          Clause.tree, parseBody, hpatterns, Option.bind_eq_bind, Option.bind_some]
  | filter e | skip e | limit e =>
      have he := parseAt_tokens (n := n) (h e (List.mem_singleton_self e)) hstops
      simp only [Clause.keyword, Clause.bodyTokens, Clause.tree, parseBody, he,
        Option.bind_eq_bind, Option.bind_some]
  | projecting projection | returning projection =>
      have hprojection := parseProjection_tokens (g := g) (n := n) h hrest
      simp only [Clause.keyword, Clause.bodyTokens, Clause.tree, parseBody, hprojection,
        Option.bind_eq_bind, Option.bind_some]
  | orderBy items =>
      have hitems := Reader.commas_commas items.toList_ne_nil (fun i hi _ =>
        parseSortItem_tokens (g := g) (n := n) (h i.expr (List.mem_map_of_mem hi))) hrest
      simp only [Clause.keyword, Clause.bodyTokens, Clause.tree, parseBody, hitems,
        Option.bind_eq_bind, Option.bind_some]
  | unwind source target =>
      have hsource := parseAt_tokens (n := n) (h source (List.mem_singleton_self source))
        (stops_alias (g := g) (n := n) target rest)
      simp only [Clause.keyword, Clause.bodyTokens, Clause.tree, parseBody, List.append_assoc,
        hsource, Option.bind_eq_bind, Option.bind_some]
      rfl
  | create patterns =>
      have hpatterns := commas_patterns (g := g) (n := n) h hrest
      simp only [Clause.keyword, Clause.bodyTokens, Clause.tree, parseBody, hpatterns,
        Option.bind_eq_bind, Option.bind_some]
  | merge pattern =>
      have hpattern := parsePattern_tokens (g := g) (n := n) h hrest.memberEnd.not_beginsArrow
      simp only [Clause.keyword, Clause.bodyTokens, Clause.tree, parseBody, hpattern,
        Option.bind_eq_bind, Option.bind_some]
  | set assignments =>
      have hassignments := Reader.commas_commas assignments.toList_ne_nil (fun a ha _ =>
        parseAssignment_tokens (g := g) (n := n) (h a.value (List.mem_map_of_mem ha))) hrest
      simp only [Clause.keyword, Clause.bodyTokens, Clause.tree, parseBody, hassignments,
        Option.bind_eq_bind, Option.bind_some]
  | delete detach targets =>
      have htargets := commas_targets (n := n) targets hrest
      cases detach <;>
        simp only [Clause.keyword, Bool.false_eq_true, if_true, if_false, Clause.bodyTokens,
          Clause.tree, parseBody, htargets, Option.bind_eq_bind, Option.bind_some]

theorem parseClause_tokens {c : Clause} (h : c.Every Expr.Legible) {rest : List Token}
    (hrest : ClauseEnd rest) : g.parseClause (c.tokens n ++ rest) = some (c.tree n, rest) := by
  rw [Clause.tokens, List.append_assoc, parseClause, Keyword.read_words]
  exact parseBody_tokens h hrest

end Grammar

/-! ## Statements

Two statements with one text have one list of tokens, and so one tree. The tree holds all that a
statement says except how its variables and parameters are told apart. -/

/-- A clause begins with its keyword. -/
theorem Clause.exists_cons_tokens (n : Names) (c : Clause) :
    ∃ t ts, c.tokens n = t :: ts ∧ t ∈ (Token.words c.keyword.words).head? := by
  unfold tokens
  cases c.keyword <;> exact ⟨_, _, rfl, rfl⟩

namespace Statement

variable {settings : Settings} {st st' : Statement} {q q' : Query}

theorem clauseEnd_tokens (cs : List Clause) : ClauseEnd (cs.flatMap (Clause.tokens n)) := by
  cases cs with
  | nil => exact clauseEnd_nil
  | cons c cs =>
      obtain ⟨first, others, hfirst, hkeyword⟩ := c.exists_cons_tokens n
      rw [List.flatMap_cons, hfirst]
      intro t ht
      obtain rfl := Option.some.inj ht
      exact ⟨c.keyword, hkeyword⟩

/-- Clause after clause the tokens of a statement are read as its tree. -/
theorem parseClauses_tokens (h : st.Every Expr.Legible) :
    g.parseClauses (st.tokens n) = some (st.tree n) := by
  unfold Statement.Every at h
  rw [tokens, tree]
  generalize st.clauses = cs at h
  induction cs with
  | nil => rw [List.flatMap_nil, Grammar.parseClauses]; rfl
  | cons c cs ih =>
      obtain ⟨hc, hcs⟩ := List.forall_mem_cons.mp h
      obtain ⟨first, others, hfirst, -⟩ := c.exists_cons_tokens n
      have hne : (c.tokens n ++ cs.flatMap (Clause.tokens n)).isEmpty = false := by
        rw [hfirst]
        rfl
      rw [List.flatMap_cons, Grammar.parseClauses, hne]
      simp only [Bool.false_eq_true, if_false, Option.bind_eq_bind, Option.bind_some,
        Grammar.parseClause_tokens hc (clauseEnd_tokens cs), ih hcs, List.map_cons]

/-- The text of a readable statement that was built is read as its tree, in both grammars. -/
theorem read_of_build (g : Grammar) (hreadable : st.Every Expr.Readable)
    (h : (st.build settings).result = .ok q) :
    read g q.text = some (st.tree (st.namesIn settings)) := by
  obtain ⟨hsound, htext⟩ := build_ok h
  have hscan : scan q.text.toList = some (st.tokens (st.namesIn settings)) := by
    rw [htext]
    exact (st.scans _ (isBlank_separator settings)
      (hreadable.mono fun _ he => he.named) [] clear_nil).scan_eq
  rw [read, hscan]
  exact parseClauses_tokens (every_legible hreadable hsound)

/-- **The text of a query determines the statement.** Two statements that are built with the same
settings and give the same text have the same tree: they can differ in nothing but the identity of
variables and parameters, literals that are written as lists or maps of literals, groups that stand
in a group of the same connective, and aliases that are the projected variable. -/
theorem tree_eq_of_text_eq (hreadable : st.Every Expr.Readable)
    (hreadable' : st'.Every Expr.Readable) (h : (st.build settings).result = .ok q)
    (h' : (st'.build settings).result = .ok q') (htext : q.text = q'.text) :
    st.tree (st.namesIn settings) = st'.tree (st'.namesIn settings) := by
  -- one grammar is enough: the same text cannot be read as two trees
  have hread := read_of_build .tightNot hreadable h
  rw [htext, read_of_build .tightNot hreadable' h'] at hread
  exact (Option.some.inj hread).symm

/-- The statement `acquaintances` with other variables and another value of its parameter. -/
def otherAcquaintances : Statement :=
  let person : Node := ⟨7, some "match", ["Person"], [("name", .param ⟨9, none, .null⟩)]⟩
  let knows : Relationship := ⟨5, none, some "KNOWS", [], some ⟨some 1, some 2⟩⟩
  let other : Node := ⟨6, none, ["it\x60s"], []⟩
  ⟨[.matching false (.single ⟨person, [⟨knows, .right, other⟩]⟩),
    .filter (.not (.compare .equal (.property other.toVar "name") (.literal (.string "O'Hara")))),
    .returning ⟨true, .single ⟨.call "count" false [.var other.toVar], some ⟨8, none⟩⟩⟩]⟩

theorem tree_eq_of_text_eq_acquaintances :
    ∃ q q', (acquaintances.build .standard).result = .ok q ∧
      (otherAcquaintances.build .standard).result = .ok q' ∧ q.text = q'.text ∧
      acquaintances.tree (acquaintances.namesIn .standard) =
        otherAcquaintances.tree (otherAcquaintances.namesIn .standard) := by
  have hcount : Name.isDotted "count" = true ∧ ∀ part ∈ Name.dotParts "count".toList,
      Name.isReserved (String.ofList part) = false := by decide
  have hreadable : acquaintances.Every Expr.Readable := by
    simp [Statement.Every, Clause.Every, acquaintances, Clause.exprs, Pattern.exprs,
      Properties.exprs, Segment.exprs, OneOrMore.toList, OneOrMore.single, Expr.Every,
      Expr.Readable, hcount]
    exact hcount.2
  have hreadable' : otherAcquaintances.Every Expr.Readable := by
    simp [Statement.Every, Clause.Every, otherAcquaintances, Clause.exprs, Pattern.exprs,
      Properties.exprs, Segment.exprs, OneOrMore.toList, OneOrMore.single, Expr.Every,
      Expr.Readable, hcount]
    exact hcount.2
  have hbuild : ∃ q q', (acquaintances.build .standard).result = .ok q ∧
      (otherAcquaintances.build .standard).result = .ok q' ∧ q.text = q'.text :=
    ⟨_, _, rfl, rfl, rfl⟩
  obtain ⟨q, q', h, h', htext⟩ := hbuild
  exact ⟨q, q', h, h', htext, tree_eq_of_text_eq hreadable hreadable' h h' htext⟩

end Statement

end GraphQuery
