import GraphQuery.Draft.Statement
import GraphQuery.Proofs.Print.Expr

set_option autoImplicit false

/-! # Printing patterns and statements

The texts of patterns, clauses and statements and the mentions in them, by recursion on them as for
expressions. In the order of printing a node comes before its property values, an expression before
its alias, and the target of an assignment before its value.
-/

namespace GraphQuery

/-! ## Patterns

For each part of a pattern there is its text (`print`), its mentions, and the two equations that
read both off its draft. The texts are recursions on the part with a name for every variable and
every parameter; a variable comes before the values of its properties. -/

/-- A range of hops as it is written. -/
def Hops.print (h : Hops) : List Char :=
  match h.least?, h.most? with
  | none, none => ['*']
  | some least, some most =>
      if least = most then '*' :: Number.naturalNumeral least
      else '*' :: (Number.naturalNumeral least ++ '.' :: '.' :: Number.naturalNumeral most)
  | none, some most => '*' :: '.' :: '.' :: Number.naturalNumeral most
  | some least, none => '*' :: (Number.naturalNumeral least ++ ['.', '.'])

theorem Hops.text_lexemes (n : Names) (h : Hops) :
    Draft.text n (h.lexemes.map .lexeme) = h.print := by
  have htext : ∀ ls : List Lexeme,
      Draft.text n (ls.map .lexeme) = ls.flatMap Lexeme.written := fun ls => List.flatMap_map ..
  rw [htext]
  obtain ⟨_ | least, _ | most⟩ := h
  · rfl
  · simp [lexemes, print, Draft.count, Lexeme.written]
  · simp [lexemes, print, Draft.count, Lexeme.written]
  · by_cases hbounds : least = most <;>
      simp [lexemes, print, hbounds, Draft.count, Lexeme.written]

namespace Properties

/-- A property list after a blank, or nothing if it is empty. -/
def print (n : Names) (ps : Properties) : List Char :=
  if ps.isEmpty then []
  else ' ' :: Text.braces (Text.commas (ps.map fun e => Text.entry e.1 (e.2.print n)))

def mentions (ps : Properties) : List Mention := ps.flatMap fun e => e.2.mentions

theorem text_draft (n : Names) (ps : Properties) (h : Draft.Sound ps.draft) :
    ps.draft.text n = ps.print n := by
  unfold draft at h ⊢
  unfold print
  split
  · rfl
  next hps =>
      rw [if_neg hps] at h
      rw [Draft.text_cons, Draft.text_braces,
        Expr.text_entries (fun e _ => e.2.text_draft n) (Draft.sound_cons.mp h).2.of_braces]
      rfl

theorem mentions_draft (ps : Properties) : ps.draft.mentions = ps.mentions := by
  unfold draft mentions
  split
  next hps =>
      rw [List.isEmpty_iff.mp hps]
      rfl
  · rw [Draft.mentions_cons, Draft.mentions_braces, Expr.draftEntries_eq_map,
      Draft.mentions_commas, List.flatMap_map]
    refine List.flatMap_congr fun e _ => ?_
    rw [Draft.mentions_entry, e.2.mentions_draft]

end Properties

namespace Node

def print (n : Names) (x : Node) : List Char :=
  Text.parens ((Mention.var x.toVar).written n ++
    ((x.labels.flatMap fun l => ':' :: Name.written l) ++ Properties.print n x.properties))

def mentions (x : Node) : List Mention := .var x.toVar :: Properties.mentions x.properties

theorem text_labels {n : Names} {labels : List String}
    (h : Draft.Sound (labels.flatMap fun l => [Draft.mark ":", Draft.name .label l])) :
    Draft.text n (labels.flatMap fun l => [Draft.mark ":", Draft.name .label l]) =
      labels.flatMap fun l => ':' :: Name.written l := by
  induction labels with
  | nil => rfl
  | cons l ls ih =>
      rw [List.flatMap_cons, Draft.sound_append] at h
      have hname := (Draft.sound_cons.mp (Draft.sound_cons.mp h.1).2).1
      rw [List.flatMap_cons, Draft.text_append, ih h.2, List.flatMap_cons, Draft.text_cons,
        Draft.text_cons, Draft.written_name hname]
      simp [Draft.mark, Piece.written, Lexeme.written]

theorem text_draft (n : Names) (x : Node) (h : Draft.Sound x.draft) :
    x.draft.text n = x.print n := by
  unfold draft at h ⊢
  obtain ⟨hlabels, hproperties⟩ := Draft.sound_append.mp h.of_parens
  rw [Draft.text_parens, Draft.text_append, Draft.text_cons,
    text_labels (Draft.sound_cons.mp hlabels).2, Properties.text_draft n x.properties hproperties,
    List.append_assoc]
  rfl

theorem mentions_draft (x : Node) : x.draft.mentions = x.mentions := by
  have hlabels : Draft.mentions (x.labels.flatMap fun l =>
      [Draft.mark ":", Draft.name .label l]) = [] := by
    induction x.labels with
    | nil => rfl
    | cons l ls ih => simp [ih]
  rw [draft, Draft.mentions_parens, Draft.mentions_append, Draft.mentions_cons, hlabels,
    Properties.mentions_draft]
  rfl

end Node

namespace Relationship

def print (n : Names) (r : Relationship) : List Char :=
  Text.brackets ((Mention.var r.toVar).written n ++
    (r.type?.elim [] (fun type => ':' :: Name.written type) ++
      (r.hops?.elim [] Hops.print ++ Properties.print n r.properties)))

def mentions (r : Relationship) : List Mention := .var r.toVar :: Properties.mentions r.properties

def typeDraft (type : String) : Draft := [Draft.mark ":", Draft.name .relationshipType type]

/-- The draft of a relationship by its optional parts. -/
theorem draft_eq (r : Relationship) :
    r.draft = Draft.brackets (.var r.toVar :: (r.type?.elim [] typeDraft ++
      (r.hops?.elim [] (fun hops => hops.lexemes.map .lexeme) ++ r.properties.draft))) := by
  obtain ⟨id, name?, _ | type, properties, _ | hops⟩ := r <;> rfl

theorem text_type {n : Names} {type? : Option String}
    (h : Draft.Sound (type?.elim [] typeDraft)) :
    Draft.text n (type?.elim [] typeDraft) =
      type?.elim [] fun type => ':' :: Name.written type := by
  cases type? with
  | none => rfl
  | some type =>
      have hname := (Draft.sound_cons.mp (Draft.sound_cons.mp h).2).1
      rw [Option.elim, typeDraft, Draft.text_cons, Draft.text_cons, Draft.written_name hname,
        Draft.text_nil, List.append_nil]
      rfl

theorem text_draft (n : Names) (r : Relationship) (h : Draft.Sound r.draft) :
    r.draft.text n = r.print n := by
  rw [draft_eq] at h ⊢
  obtain ⟨htype, hrest⟩ := Draft.sound_append.mp (Draft.sound_cons.mp h.of_brackets).2
  have hhops : Draft.text n (r.hops?.elim [] fun hops => hops.lexemes.map .lexeme) =
      r.hops?.elim [] Hops.print := by
    cases r.hops? with
    | none => rfl
    | some hops => exact hops.text_lexemes n
  rw [Draft.text_brackets, Draft.text_cons, Draft.text_append, Draft.text_append, text_type htype,
    hhops, Properties.text_draft n r.properties (Draft.sound_append.mp hrest).2]
  rfl

theorem mentions_draft (r : Relationship) : r.draft.mentions = r.mentions := by
  have htype : Draft.mentions (r.type?.elim [] typeDraft) = [] := by
    cases r.type? <;> simp [typeDraft]
  have hhops : Draft.mentions (r.hops?.elim [] fun hops => hops.lexemes.map .lexeme) = [] := by
    cases r.hops? with
    | none => rfl
    | some hops => simp [Draft.mentions, List.flatMap_map, Piece.mentions]
  rw [draft_eq, Draft.mentions_brackets, Draft.mentions_cons, Draft.mentions_append,
    Draft.mentions_append, htype, hhops, Properties.mentions_draft]
  rfl

end Relationship

namespace Segment

def print (n : Names) (s : Segment) : List Char :=
  s.direction.before.written ++ (s.relationship.print n ++
    (s.direction.after.written ++ s.node.print n))

def mentions (s : Segment) : List Mention := s.relationship.mentions ++ s.node.mentions

theorem text_draft (n : Names) (s : Segment) (h : Draft.Sound s.draft) :
    s.draft.text n = s.print n := by
  unfold draft at h ⊢
  obtain ⟨hrelationship, hrest⟩ := Draft.sound_append.mp (Draft.sound_cons.mp h).2
  rw [Draft.text_cons, Draft.text_append, Draft.text_cons,
    s.relationship.text_draft n hrelationship, s.node.text_draft n (Draft.sound_cons.mp hrest).2]
  rfl

theorem mentions_draft (s : Segment) : s.draft.mentions = s.mentions := by
  rw [draft, Draft.mentions_cons, Draft.mentions_append, Draft.mentions_cons,
    s.relationship.mentions_draft, s.node.mentions_draft]
  rfl

end Segment

namespace Pattern

def print (n : Names) (p : Pattern) : List Char :=
  p.start.print n ++ p.segments.flatMap (Segment.print n)

def mentions (p : Pattern) : List Mention := p.start.mentions ++ p.segments.flatMap Segment.mentions

theorem text_segments {n : Names} {segments : List Segment}
    (h : Draft.Sound (segments.flatMap Segment.draft)) :
    Draft.text n (segments.flatMap Segment.draft) = segments.flatMap (Segment.print n) := by
  induction segments with
  | nil => rfl
  | cons s ss ih =>
      rw [List.flatMap_cons, Draft.sound_append] at h
      rw [List.flatMap_cons, Draft.text_append, s.text_draft n h.1, ih h.2, List.flatMap_cons]

theorem text_draft (n : Names) (p : Pattern) (h : Draft.Sound p.draft) :
    p.draft.text n = p.print n := by
  unfold draft at h ⊢
  obtain ⟨hstart, hsegments⟩ := Draft.sound_append.mp h
  rw [Draft.text_append, p.start.text_draft n hstart, text_segments hsegments, print]

theorem mentions_draft (p : Pattern) : p.draft.mentions = p.mentions := by
  have hsegments : Draft.mentions (p.segments.flatMap Segment.draft) =
      p.segments.flatMap Segment.mentions := by
    induction p.segments with
    | nil => rfl
    | cons s ss ih =>
        rw [List.flatMap_cons, Draft.mentions_append, s.mentions_draft, ih, List.flatMap_cons]
  rw [draft, Draft.mentions_append, p.start.mentions_draft, hsegments, mentions]

end Pattern

/-! ## Parts of clauses

The same for items, projections, sort items and assignments. A draft looks at an expression to
decide whether its alias is written; with `Item.shownAlias?` that decision is made once, for
texts, mentions, tokens and trees. -/

namespace Item

/-- The alias that is written: none for a variable that names itself. -/
def shownAlias? (i : Item) : Option Alias :=
  i.alias?.filter fun a => !i.expr.equal (.var a.toVar)

def print (n : Names) (i : Item) : List Char :=
  i.expr.print n ++
    i.shownAlias?.elim [] fun a => ' ' :: ("AS".toList ++ ' ' :: (Mention.var a.toVar).written n)

def mentions (i : Item) : List Mention :=
  i.expr.mentions ++ i.shownAlias?.toList.map fun a => .var a.toVar

/-- The draft of a projected item by the alias that is written. -/
theorem draft_eq (i : Item) :
    i.draft = i.expr.draft ++
      i.shownAlias?.elim [] fun a =>
        [Draft.space, Draft.word "AS", Draft.space, .var a.toVar] := by
  obtain ⟨e, _ | a⟩ := i
  · exact (List.append_nil _).symm
  · by_cases h : e.equal (.var a.toVar) = true
    · simp [draft, shownAlias?, h, Option.filter]
    · simp [draft, shownAlias?, h, Option.filter]

theorem text_draft (n : Names) (i : Item) (h : Draft.Sound i.draft) :
    i.draft.text n = i.print n := by
  rw [draft_eq] at h ⊢
  rw [Draft.text_append, i.expr.text_draft n (Draft.sound_append.mp h).1, print]
  cases i.shownAlias? with
  | none => rfl
  | some a => simp

theorem mentions_draft (i : Item) : i.draft.mentions = i.mentions := by
  rw [draft_eq, Draft.mentions_append, i.expr.mentions_draft, mentions]
  cases i.shownAlias? <;> rfl

end Item

namespace Projection

def print (n : Names) (p : Projection) : List Char :=
  (if p.distinct then "DISTINCT".toList ++ [' '] else []) ++
    Text.commas (p.items.toList.map (Item.print n))

def mentions (p : Projection) : List Mention := p.items.toList.flatMap Item.mentions

theorem text_draft (n : Names) (p : Projection) (h : Draft.Sound p.draft) :
    p.draft.text n = p.print n := by
  unfold draft at h ⊢
  have hitems := (Draft.sound_append.mp h).2
  rw [Draft.text_append, Draft.text_commas, Draft.map_text_map fun i hi =>
    i.text_draft n (hitems.of_commas (List.mem_map_of_mem hi)), print]
  cases p.distinct <;> rfl

theorem mentions_draft (p : Projection) : p.draft.mentions = p.mentions := by
  rw [draft, Draft.mentions_append, Draft.mentions_commas, List.flatMap_map, mentions,
    List.flatMap_congr fun i _ => i.mentions_draft]
  cases p.distinct <;> rfl

end Projection

namespace SortItem

def print (n : Names) (i : SortItem) : List Char :=
  i.expr.print n ++ if i.descending then ' ' :: "DESC".toList else []

def mentions (i : SortItem) : List Mention := i.expr.mentions

theorem text_draft (n : Names) (i : SortItem) (h : Draft.Sound i.draft) :
    i.draft.text n = i.print n := by
  unfold draft at h ⊢
  rw [Draft.text_append, i.expr.text_draft n (Draft.sound_append.mp h).1, print]
  cases i.descending <;> rfl

theorem mentions_draft (i : SortItem) : i.draft.mentions = i.mentions := by
  rw [draft, Draft.mentions_append, i.expr.mentions_draft, mentions]
  cases i.descending <;> simp

end SortItem

namespace Assignment

def print (n : Names) (a : Assignment) : List Char :=
  (Mention.var a.target).written n ++
    '.' :: (Name.written a.key ++ ' ' :: '=' :: ' ' :: a.value.print n)

def mentions (a : Assignment) : List Mention := .var a.target :: a.value.mentions

theorem text_draft (n : Names) (a : Assignment) (h : Draft.Sound a.draft) :
    a.draft.text n = a.print n := by
  unfold draft at h ⊢
  simp only [Draft.sound_cons] at h
  obtain ⟨-, -, hname, -, -, -, hvalue⟩ := h
  rw [Draft.text_cons, Draft.text_cons, Draft.text_cons, Draft.text_cons, Draft.text_cons,
    Draft.text_cons, Draft.written_name hname, a.value.text_draft n hvalue]
  rfl

theorem mentions_draft (a : Assignment) : a.draft.mentions = a.mentions := by
  simp [draft, mentions, a.value.mentions_draft]

end Assignment

/-! ## Clauses and statements

A clause is its keyword and the parts that it lists. A statement is its clauses, and only its
text depends on the separator. -/

namespace Clause

/-- The text of what follows the keyword of a clause. -/
def printBody (n : Names) : Clause → List Char
  | .matching _ patterns => Text.commas (patterns.toList.map (Pattern.print n))
  | .filter condition => condition.print n
  | .projecting projection => projection.print n
  | .returning projection => projection.print n
  | .orderBy items => Text.commas (items.toList.map (SortItem.print n))
  | .skip count => count.print n
  | .limit count => count.print n
  | .unwind source target =>
      source.print n ++ ' ' :: ("AS".toList ++ ' ' :: (Mention.var target.toVar).written n)
  | .create patterns => Text.commas (patterns.toList.map (Pattern.print n))
  | .merge pattern => pattern.print n
  | .set assignments => Text.commas (assignments.toList.map (Assignment.print n))
  | .delete _ targets =>
      Text.commas (targets.toList.map fun v => (Mention.var v).written n)

def print (n : Names) (c : Clause) : List Char :=
  Text.words c.keyword.words ++ ' ' :: c.printBody n

/-- The mentions in a clause. -/
def mentions : Clause → List Mention
  | .matching _ patterns => patterns.toList.flatMap Pattern.mentions
  | .filter condition => condition.mentions
  | .projecting projection => projection.mentions
  | .returning projection => projection.mentions
  | .orderBy items => items.toList.flatMap SortItem.mentions
  | .skip count => count.mentions
  | .limit count => count.mentions
  | .unwind source target => source.mentions ++ [.var target.toVar]
  | .create patterns => patterns.toList.flatMap Pattern.mentions
  | .merge pattern => pattern.mentions
  | .set assignments => assignments.toList.flatMap Assignment.mentions
  | .delete _ targets => targets.toList.map .var

theorem text_body (n : Names) (c : Clause) (h : Draft.Sound c.body) :
    c.body.text n = c.printBody n := by
  cases c with
  | matching optional patterns =>
      exact Draft.text_commas.trans (congrArg _ (Draft.map_text_map fun p hp =>
        p.text_draft n (h.of_commas (List.mem_map_of_mem hp))))
  | filter condition => exact condition.text_draft n h
  | projecting projection => exact projection.text_draft n h
  | returning projection => exact projection.text_draft n h
  | orderBy items =>
      exact Draft.text_commas.trans (congrArg _ (Draft.map_text_map fun i hi =>
        i.text_draft n (h.of_commas (List.mem_map_of_mem hi))))
  | skip count => exact count.text_draft n h
  | limit count => exact count.text_draft n h
  | unwind source target =>
      rw [body, Draft.text_append, source.text_draft n (Draft.sound_append.mp h).1]
      simp [printBody]
  | create patterns =>
      exact Draft.text_commas.trans (congrArg _ (Draft.map_text_map fun p hp =>
        p.text_draft n (h.of_commas (List.mem_map_of_mem hp))))
  | merge pattern => exact pattern.text_draft n h
  | set assignments =>
      exact Draft.text_commas.trans (congrArg _ (Draft.map_text_map fun a ha =>
        a.text_draft n (h.of_commas (List.mem_map_of_mem ha))))
  | delete detach targets =>
      exact Draft.text_commas.trans (congrArg _ (Draft.map_text_map fun v _ =>
        (Draft.text_cons.trans (List.append_nil _))))

theorem text_draft (n : Names) (c : Clause) (h : Draft.Sound c.draft) :
    c.draft.text n = c.print n := by
  unfold draft at h ⊢
  rw [Draft.text_append, Draft.text_words, Draft.text_cons,
    c.text_body n (Draft.sound_cons.mp (Draft.sound_append.mp h).2).2]
  rfl

theorem mentions_draft (c : Clause) : c.draft.mentions = c.mentions := by
  rw [draft, Draft.mentions_append, Draft.mentions_words, Draft.mentions_cons]
  show c.body.mentions = c.mentions
  cases c with
  | matching optional patterns | create patterns =>
      rw [body, mentions, Draft.mentions_commas, List.flatMap_map]
      exact List.flatMap_congr fun p _ => p.mentions_draft
  | filter e | skip e | limit e => exact e.mentions_draft
  | projecting projection | returning projection => exact projection.mentions_draft
  | orderBy items =>
      rw [body, mentions, Draft.mentions_commas, List.flatMap_map]
      exact List.flatMap_congr fun i _ => i.mentions_draft
  | unwind source target =>
      rw [body, mentions, Draft.mentions_append, source.mentions_draft]
      rfl
  | merge pattern => exact pattern.mentions_draft
  | set assignments =>
      rw [body, mentions, Draft.mentions_commas, List.flatMap_map]
      exact List.flatMap_congr fun a _ => a.mentions_draft
  | delete detach targets =>
      rw [body, mentions, Draft.mentions_commas, List.flatMap_map, List.map_eq_flatMap]
      rfl

end Clause

namespace Statement

def print (n : Names) (separator : Char) (st : Statement) : List Char :=
  [separator].intercalate (st.clauses.map (Clause.print n))

def mentions (st : Statement) : List Mention := st.clauses.flatMap Clause.mentions

theorem text_draft (n : Names) (separator : Char) (st : Statement)
    (h : Draft.Sound (st.draft separator)) :
    (st.draft separator).text n = st.print n separator := by
  unfold draft at h ⊢
  rw [Draft.text_intercalate, Draft.map_text_map fun c hc =>
    c.text_draft n (h.of_intercalate (List.mem_map_of_mem hc))]
  rfl

theorem mentions_draft (separator : Char) (st : Statement) :
    (st.draft separator).mentions = st.mentions := by
  rw [draft, Draft.mentions_intercalate rfl, List.flatMap_map]
  exact List.flatMap_congr fun c _ => c.mentions_draft

end Statement

end GraphQuery
