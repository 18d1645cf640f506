import GraphQuery.Proofs.Print.TwoPass
import GraphQuery.Proofs.Token.Expr

set_option autoImplicit false

/-! # The tokens of statements

The tokens of patterns, clauses and statements by recursion on them. Nothing that a caller gives as
a name, a label, a type, a key or a string can become more than the one token that carries it:
scanning the text of a statement that was built gives its tokens (`Statement.scan_build`).
-/

namespace GraphQuery

/-! ## Patterns

The tokens of each part mirror its text, with one token for every name. Nodes and relationships
end with a bracket, so they scan alike in front of everything; the parts inside them are
delimited by the mark that each begins with. -/

/-- A text that is empty or begins with a character that ends a name, a word or a number. -/
def Delimited (cs : List Char) : Prop := ∀ c ∈ cs.head?, Token.delimits c = true

theorem Delimited.clear {cs rest : List Char} (h : Delimited cs) (hrest : Clear rest) :
    Clear (cs ++ rest) := by
  cases cs with
  | nil => exact hrest
  | cons c cs => exact clear_cons (h c rfl) _

theorem Delimited.append {cs ds : List Char} (h : Delimited cs) (h' : Delimited ds) :
    Delimited (cs ++ ds) := by
  cases cs with
  | nil => exact h'
  | cons c cs => exact h

theorem delimited_nil : Delimited [] := by simp [Delimited]

theorem delimited_cons {c : Char} (h : Token.delimits c = true) (cs : List Char) :
    Delimited (c :: cs) := by
  simpa [Delimited] using h

namespace Hops

def count (k : Nat) : Token := .number (Number.naturalNumeral k)

/-- The tokens of a range of hops. -/
def tokens (h : Hops) : List Token :=
  match h.least?, h.most? with
  | none, none => [.mark .star]
  | some least, some most =>
      if least = most then [.mark .star, count least]
      else [.mark .star, count least, .mark .dots, count most]
  | none, some most => [.mark .star, .mark .dots, count most]
  | some least, none => [.mark .star, count least, .mark .dots]

theorem scans_dots (rest : List Char) : Scans ['.', '.'] [.mark .dots] rest :=
  scans_pair (by decide) rfl (by decide) rest

/-- A hop count before two full stops is no decimal fraction. -/
theorem scans_count_dots (k : Nat) (rest : List Char) :
    Scans (Number.naturalNumeral k) [count k] (['.', '.'] ++ rest) :=
  scans_natural k (clear_dot (Number.Literal.noDigit_cons (by decide)))

theorem scans (h : Hops) : ScansAs h.print h.tokens := by
  have hstar : Mark.Alone '*' .star := ⟨by decide, rfl, by decide⟩
  intro rest hrest
  -- the bounds of a range stay apart, since a number takes a full stop only before a digit
  have hmost : ∀ most, Scans (['.', '.'] ++ Number.naturalNumeral most)
      ([.mark .dots] ++ [count most]) rest :=
    fun most => (scans_dots _).append (scans_natural most hrest)
  obtain ⟨_ | least, _ | most⟩ := h
  · exact hstar.scans rest
  · exact (hstar.scans _).cons (hmost most)
  · exact (hstar.scans _).cons ((scans_count_dots least rest).append (scans_dots rest))
  · simp only [print, tokens]
    split
    · exact (hstar.scans _).cons (scans_natural least hrest)
    · have hleast : Scans (Number.naturalNumeral least) [count least]
          (['.', '.'] ++ Number.naturalNumeral most ++ rest) := by
        rw [List.append_assoc]
        exact scans_count_dots least _
      exact (hstar.scans _).cons (hleast.append (hmost most))

theorem delimited_print (h : Hops) : Delimited h.print := by
  obtain ⟨_ | least, _ | most⟩ := h
  · exact delimited_cons (by decide) _
  · exact delimited_cons (by decide) _
  · exact delimited_cons (by decide) _
  · simp only [print]
    split <;> exact delimited_cons (by decide) _

end Hops

namespace Properties

def tokens (n : Names) (ps : Properties) : List Token :=
  if ps.isEmpty then []
  else Token.braces (Token.commas (ps.map fun e => Token.entry e.1 (e.2.tokens n)))

theorem scans (n : Names) (ps : Properties) (h : ∀ e ∈ ps.exprs, e.Every Expr.Named) :
    ScansAs (ps.print n) (ps.tokens n) := by
  unfold print tokens
  split
  · exact ScansAs.nil
  · refine ScansAs.of_scans fun rest => (scans_space _).cons (ScansAs.braces ?_ rest)
    exact ScansAs.commas fun e he => (e.2.scans n (h e.2 (List.mem_map_of_mem he))).entry e.1

theorem delimited_print (n : Names) (ps : Properties) : Delimited (ps.print n) := by
  unfold print
  split
  · exact delimited_nil
  · exact delimited_cons (by decide) _

end Properties

/-- A name after a colon. -/
theorem scans_colon_name (raw : String) :
    ScansAs (':' :: Name.written raw) [.mark .colon, .ofName raw] := by
  have hcolon : Mark.Alone ':' .colon := ⟨by decide, rfl, by decide⟩
  exact fun rest hrest => (hcolon.scans _).cons (scans_name raw hrest)

namespace Node

def tokens (n : Names) (x : Node) : List Token :=
  Token.parens (.ofBinding (n.var x.toVar) ::
    ((x.labels.flatMap fun l => [.mark .colon, .ofName l]) ++ Properties.tokens n x.properties))

theorem delimited_labels (labels : List String) :
    Delimited (labels.flatMap fun l => ':' :: Name.written l) := by
  cases labels with
  | nil => exact delimited_nil
  | cons l ls => exact delimited_cons (by decide) _

theorem scans_labels (labels : List String) :
    ScansAs (labels.flatMap fun l => ':' :: Name.written l)
      (labels.flatMap fun l => [.mark .colon, .ofName l]) := by
  induction labels with
  | nil => exact ScansAs.nil
  | cons l ls ih => exact (scans_colon_name l).append ih fun _ => (delimited_labels ls).clear

theorem scans (n : Names) (x : Node) (h : ∀ e ∈ Properties.exprs x.properties, e.Every Expr.Named)
    (rest : List Char) : Scans (x.print n) (x.tokens n) rest := by
  have hproperties := Properties.scans n x.properties h
  have hdelimited := Properties.delimited_print n x.properties
  -- the labels follow the variable, and the properties follow the labels, without a blank
  have hlabels : ScansAs _ _ :=
    (scans_labels x.labels).append hproperties fun _ => hdelimited.clear
  have hvariable : ScansAs _ _ := (ScansAs.mentionVar n x.toVar).append hlabels
    fun _ => ((delimited_labels x.labels).append hdelimited).clear
  exact hvariable.parens rest

end Node

namespace Relationship

def tokens (n : Names) (r : Relationship) : List Token :=
  Token.brackets (.ofBinding (n.var r.toVar) ::
    (r.type?.elim [] (fun type => [.mark .colon, .ofName type]) ++
      (r.hops?.elim [] Hops.tokens ++ Properties.tokens n r.properties)))

theorem scans (n : Names) (r : Relationship)
    (h : ∀ e ∈ Properties.exprs r.properties, e.Every Expr.Named) (rest : List Char) :
    Scans (r.print n) (r.tokens n) rest := by
  have htype : ScansAs (r.type?.elim [] fun type => ':' :: Name.written type)
        (r.type?.elim [] fun type => [.mark .colon, .ofName type]) ∧
      Delimited (r.type?.elim [] fun type => ':' :: Name.written type) := by
    cases r.type? with
    | none => exact ⟨ScansAs.nil, delimited_nil⟩
    | some type => exact ⟨scans_colon_name type, delimited_cons (by decide) _⟩
  have hhops : ScansAs (r.hops?.elim [] Hops.print) (r.hops?.elim [] Hops.tokens) ∧
      Delimited (r.hops?.elim [] Hops.print) := by
    cases r.hops? with
    | none => exact ⟨ScansAs.nil, delimited_nil⟩
    | some hops => exact ⟨hops.scans, hops.delimited_print⟩
  have hproperties := Properties.scans n r.properties h
  have hdelimited := Properties.delimited_print n r.properties
  have hrange : ScansAs _ _ := hhops.1.append hproperties fun _ => hdelimited.clear
  have hbehind : ScansAs _ _ := htype.1.append hrange fun _ => (hhops.2.append hdelimited).clear
  have hvariable : ScansAs _ _ := (ScansAs.mentionVar n r.toVar).append hbehind
    fun _ => (htype.2.append (hhops.2.append hdelimited)).clear
  exact hvariable.brackets rest

end Relationship

def Direction.markBefore : Direction → Mark
  | .left => .arrowLeft
  | .right | .both => .minus

def Direction.markAfter : Direction → Mark
  | .right => .arrowRight
  | .left | .both => .minus

/-- A minus before a bracket is no arrow and no sign. -/
theorem scans_minus_bracket {c : Char} (hpair : Mark.ofPair '-' c = none)
    (hdigit : c.isDigit = false) (rest : List Char) : Scans ['-'] [.mark .minus] (c :: rest) := by
  refine scans_mark (by decide) rfl (fun d hd => ?_) (fun _ => ?_)
  · rw [← Option.some.inj hd]
    exact hpair
  · simpa [Token.startsWithDigit] using hdigit

theorem Direction.scans_before (d : Direction) (rest : List Char) :
    Scans d.before.written [.mark d.markBefore] ('[' :: rest) := by
  cases d with
  | left => exact scans_pair (by decide) rfl (by decide) _
  | right | both => exact scans_minus_bracket rfl (by decide) rest

theorem Direction.scans_after (d : Direction) (rest : List Char) :
    Scans d.after.written [.mark d.markAfter] ('(' :: rest) := by
  cases d with
  | right => exact scans_pair (by decide) rfl (by decide) _
  | left | both => exact scans_minus_bracket rfl (by decide) rest

namespace Segment

def tokens (n : Names) (s : Segment) : List Token :=
  .mark s.direction.markBefore :: (s.relationship.tokens n ++
    .mark s.direction.markAfter :: s.node.tokens n)

theorem scans (n : Names) (s : Segment) (h : ∀ e ∈ s.exprs, e.Every Expr.Named)
    (rest : List Char) : Scans (s.print n) (s.tokens n) rest := by
  obtain ⟨hrelationship, hnode⟩ := List.forall_mem_append.mp h
  have hend : Scans (s.direction.after.written ++ s.node.print n)
      (.mark s.direction.markAfter :: s.node.tokens n) rest :=
    (s.direction.scans_after _).append (s.node.scans n hnode rest)
  have hbody : Scans (s.relationship.print n ++ (s.direction.after.written ++ s.node.print n))
      (s.relationship.tokens n ++ .mark s.direction.markAfter :: s.node.tokens n) rest :=
    (s.relationship.scans n hrelationship _).append hend
  exact (s.direction.scans_before _).append hbody

end Segment

namespace Pattern

def tokens (n : Names) (p : Pattern) : List Token :=
  p.start.tokens n ++ p.segments.flatMap (Segment.tokens n)

theorem scans (n : Names) (p : Pattern) (h : ∀ e ∈ p.exprs, e.Every Expr.Named) :
    ScansAs (p.print n) (p.tokens n) := by
  obtain ⟨hstart, hsegments⟩ := List.forall_mem_append.mp h
  -- nodes close their brackets, so the segments need nothing from what follows
  refine ScansAs.of_scans fun rest => (p.start.scans n hstart _).append ?_
  generalize p.segments = segments at hsegments
  induction segments with
  | nil => exact scans_nil rest
  | cons s ss ih =>
      rw [List.flatMap_cons] at hsegments
      obtain ⟨hs, hss⟩ := List.forall_mem_append.mp hsegments
      exact (s.scans n hs _).append (ih hss)

end Pattern

/-! ## Clauses

Where a clause lists its members with commas, the tokens are those of the members with commas,
and words such as `AS` and `DESC` are keywords. -/

def Alias.tokens (n : Names) (a : Alias) : List Token := [.keyword "AS", .ofBinding (n.var a.toVar)]

theorem Alias.scans (n : Names) (a : Alias) :
    ScansAs ("AS".toList ++ ' ' :: (Mention.var a.toVar).written n) (a.tokens n) :=
  (ScansAs.keyword (by decide)).spaced (ScansAs.mentionVar n a.toVar)

def Item.tokens (n : Names) (i : Item) : List Token :=
  i.expr.tokens n ++ i.shownAlias?.elim [] (Alias.tokens n)

theorem Item.scans (n : Names) (i : Item) (h : i.expr.Every Expr.Named) :
    ScansAs (i.print n) (i.tokens n) := by
  unfold print tokens
  cases i.shownAlias? with
  | none => exact (i.expr.scans n h).append ScansAs.nil fun _ hrest => hrest
  | some a => exact (i.expr.scans n h).spaced (a.scans n)

def Projection.tokens (n : Names) (p : Projection) : List Token :=
  (if p.distinct then [.keyword "DISTINCT"] else []) ++
    Token.commas (p.items.toList.map (Item.tokens n))

theorem Projection.scans (n : Names) (p : Projection)
    (h : ∀ e ∈ p.items.toList.map Item.expr, e.Every Expr.Named) :
    ScansAs (p.print n) (p.tokens n) :=
  Expr.scans_optional (by decide) p.distinct
    (ScansAs.commas fun i hi => i.scans n (h i.expr (List.mem_map_of_mem hi)))

def SortItem.tokens (n : Names) (i : SortItem) : List Token :=
  i.expr.tokens n ++ if i.descending then [.keyword "DESC"] else []

theorem SortItem.scans (n : Names) (i : SortItem) (h : i.expr.Every Expr.Named) :
    ScansAs (i.print n) (i.tokens n) := by
  unfold print tokens
  cases i.descending with
  | false => exact (i.expr.scans n h).append ScansAs.nil fun _ hrest => hrest
  | true => exact (i.expr.scans n h).spaced (ScansAs.keyword (by decide))

def Assignment.tokens (n : Names) (a : Assignment) : List Token :=
  [.ofBinding (n.var a.target), .mark .dot, .ofName a.key] ++
    .mark .equal :: a.value.tokens n

theorem Assignment.scans (n : Names) (a : Assignment) (h : a.value.Every Expr.Named) :
    ScansAs (a.print n) (a.tokens n) := by
  have hkey : ScansAs (Name.written a.key) [.ofName a.key] := fun _ hrest => scans_name a.key hrest
  have htarget := (ScansAs.mentionVar n a.target).dotted hkey (Name.exists_cons_written a.key)
  have hequal : ∀ rest, Scans ['='] [.mark .equal] (' ' :: rest) :=
    scans_mark_space (by decide) rfl rfl
  have := htarget.binary hequal (a.value.scans n h)
  simpa [Text.binary, print, Token.binary, tokens] using this

namespace Clause

/-- The tokens of what follows the keyword of a clause. -/
def bodyTokens (n : Names) : Clause → List Token
  | .matching _ patterns => Token.commas (patterns.toList.map (Pattern.tokens n))
  | .filter condition => condition.tokens n
  | .projecting projection => projection.tokens n
  | .returning projection => projection.tokens n
  | .orderBy items => Token.commas (items.toList.map (SortItem.tokens n))
  | .skip count => count.tokens n
  | .limit count => count.tokens n
  | .unwind source target => source.tokens n ++ target.tokens n
  | .create patterns => Token.commas (patterns.toList.map (Pattern.tokens n))
  | .merge pattern => pattern.tokens n
  | .set assignments => Token.commas (assignments.toList.map (Assignment.tokens n))
  | .delete _ targets => Token.commas (targets.toList.map fun v => [.ofBinding (n.var v)])

def tokens (n : Names) (c : Clause) : List Token :=
  Token.words c.keyword.words ++ c.bodyTokens n

theorem scans_patterns (n : Names) {patterns : OneOrMore Pattern}
    (h : ∀ e ∈ patterns.toList.flatMap Pattern.exprs, e.Every Expr.Named) :
    ScansAs (Text.commas (patterns.toList.map (Pattern.print n)))
      (Token.commas (patterns.toList.map (Pattern.tokens n))) :=
  ScansAs.commas fun p hp =>
    p.scans n fun e he => h e (List.mem_flatMap.mpr ⟨p, hp, he⟩)

theorem scans_body (n : Names) (c : Clause) (h : c.Every Expr.Named) :
    ScansAs (c.printBody n) (c.bodyTokens n) := by
  cases c with
  | matching optional patterns => exact scans_patterns n h
  | filter e | skip e | limit e => exact e.scans n (h e (List.mem_singleton_self e))
  | projecting projection | returning projection => exact projection.scans n h
  | orderBy items =>
      exact ScansAs.commas fun i hi => i.scans n (h i.expr (List.mem_map_of_mem hi))
  | unwind source target =>
      exact (source.scans n (h source (List.mem_singleton_self source))).spaced (target.scans n)
  | create patterns => exact scans_patterns n h
  | merge pattern => exact pattern.scans n h
  | set assignments =>
      exact ScansAs.commas fun a ha => a.scans n (h a.value (List.mem_map_of_mem ha))
  | delete detach targets => exact ScansAs.commas fun v _ => ScansAs.mentionVar n v

theorem scans (n : Names) (c : Clause) (h : c.Every Expr.Named) :
    ScansAs (c.print n) (c.tokens n) := by
  have hwords : ∀ k : Keyword, ∀ w ∈ k.words, Name.isPlain w = true := by
    intro k
    cases k <;> decide
  exact (ScansAs.words (hwords c.keyword)).spaced (c.scans_body n h)

end Clause

/-! ## Statements

Between two clauses there is a blank, whichever layout the settings ask for, and blanks are not
tokens. -/

namespace Statement

def tokens (n : Names) (st : Statement) : List Token := st.clauses.flatMap (Clause.tokens n)

theorem scans (n : Names) {separator : Char} (hseparator : Token.isBlank separator = true)
    (st : Statement) (h : st.Every Expr.Named) :
    ScansAs (st.print n separator) (st.tokens n) := by
  have hclear : ∀ rest, Clear ([separator] ++ rest) := by
    intro rest
    refine clear_cons ?_ rest
    simp only [Token.isBlank, Bool.or_eq_true, beq_iff_eq] at hseparator
    rcases hseparator with rfl | rfl <;> decide
  have := ScansAs.intercalate (scans_blank hseparator) hclear
    fun (c : Clause) hc => c.scans n (h c hc)
  rwa [intercalate_nil_left, ← List.flatMap_def] at this

theorem isBlank_separator (settings : Settings) : Token.isBlank settings.separator = true := by
  unfold Settings.separator
  split <;> rfl

/-- **What a caller gives stays where it was put.** Scanning the text of a statement that was built
gives the tokens of the statement with its names, whatever characters its names, labels, types, keys
and strings hold. -/
theorem scan_build {settings : Settings} {st : Statement} {q : Query}
    (hnamed : st.Every Expr.Named) (h : (st.build settings).result = .ok q) :
    scan q.text.toList = some (st.tokens (st.namesIn settings)) := by
  obtain ⟨-, htext⟩ := build_ok h
  rw [htext]
  exact (st.scans _ (isBlank_separator settings) hnamed [] clear_nil).scan_eq

theorem scan_build_acquaintances :
    acquaintances.Every Expr.Named ∧
      ∃ q, (acquaintances.build .standard).result = .ok q ∧
        scan q.text.toList = some (acquaintances.tokens (acquaintances.namesIn .standard)) := by
  have hcount : Name.isDotted "count" = true := by decide
  have hnamed : acquaintances.Every Expr.Named := by
    simp [Statement.Every, Clause.Every, acquaintances, Clause.exprs, Pattern.exprs,
      Properties.exprs, Segment.exprs, OneOrMore.toList, OneOrMore.single, Expr.Every, Expr.Named,
      hcount]
  have hbuild : ∃ q, (acquaintances.build .standard).result = .ok q := ⟨_, rfl⟩
  obtain ⟨q, hq⟩ := hbuild
  exact ⟨hnamed, q, hq, scan_build hnamed hq⟩

end Statement

end GraphQuery
