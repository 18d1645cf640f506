import GraphQuery.Proofs.Parser.Expr
import GraphQuery.Proofs.Tree.Statement

set_option autoImplicit false

/-! # Reading statements

A reader of statements: the keyword of each clause says what is read behind it. What a clause lists
is read with a comma between two members; a pattern goes on as long as an arrow follows.
-/

namespace GraphQuery

open Token (after readWord)

/-! ## Parts

A reader of a part gives the part and the tokens behind it. Names are read without asking whether
they stood between backquotes, since a tree holds the names themselves. -/

def Token.readName : List Token → Option (String × List Token)
  | .name raw _ :: ts => some (raw, ts)
  | _ => none

/-- A reader takes the tokens of one thing and leaves the rest. -/
abbrev Reader (α : Type) := List Token → Option (α × List Token)

/-- Things with a comma between two of them, of which there is at least one. -/
def Reader.commas {α : Type} (item : Reader α) (ts : List Token) :
    Option (List α × List Token) := do
  let (x, ts) ← item ts
  match after .comma ts with
  | some ts => do
      let (xs, ts) ← item |>.commas ts
      some (x :: xs, ts)
  | none => some ([x], ts)
partial_fixpoint

/-- The name behind a word, if the word is there. -/
def Token.readNameAfter (word : String) (ts : List Token) : Option (Option String × List Token) :=
  match readWord word ts with
  | (true, ts) => (readName ts).map fun r => (some r.1, r.2)
  | (false, ts) => some (none, ts)

/-! ## Patterns

Labels, types, hops and properties may each be missing. Whether one is there is decided by the
mark it begins with: a colon, a star or a brace. -/

def Token.readLabels : List Token → List String × List Token
  | .mark .colon :: .name raw _ :: ts => (raw :: (readLabels ts).1, (readLabels ts).2)
  | ts => ([], ts)

/-- The name behind a colon, if there is one. -/
def Token.readType : List Token → Option String × List Token
  | .mark .colon :: .name raw _ :: ts => (some raw, ts)
  | ts => (none, ts)

/-- The hop count at the start, if there is one. -/
def Hops.readCount : List Token → Option Nat × List Token
  | .number text :: ts => (some (Nat.ofDigitChars 10 text 0), ts)
  | ts => (none, ts)

/-- The range of hops at the start, if there is one. A single number is both bounds. -/
def Hops.read (ts : List Token) : Option Hops × List Token :=
  match after .star ts with
  | some ts =>
      match after .dots (readCount ts).2 with
      | some rest => (some ⟨(readCount ts).1, (readCount rest).1⟩, (readCount rest).2)
      | none => (some ⟨(readCount ts).1, (readCount ts).1⟩, (readCount ts).2)
  | none => (none, ts)

/-- The property list at the start, which is empty if there is none. -/
def Grammar.parseProperties (g : Grammar) (ts : List Token) :
    Option (List (String × Tree) × List Token) :=
  match after .braceOpen ts with
  | some ts => g.parseSomeEntries ts
  | none => some ([], ts)

/-- The node at the start. -/
def Grammar.parseNode (g : Grammar) (ts : List Token) : Option (NodeTree × List Token) := do
  let ts ← after .parenOpen ts
  let (name, ts) ← Token.readName ts
  let (properties, rest) ← g.parseProperties (Token.readLabels ts).2
  let rest ← after .parenClose rest
  some (⟨name, (Token.readLabels ts).1, properties⟩, rest)

/-- The relationship at the start, without its arrow. -/
def Grammar.parseRelationship (g : Grammar) (ts : List Token) :
    Option (RelationshipTree × List Token) := do
  let ts ← after .bracketOpen ts
  let (name, ts) ← Token.readName ts
  let (type?, ts) := Token.readType ts
  let (hops?, ts) := Hops.read ts
  let (properties, ts) ← g.parseProperties ts
  let ts ← after .bracketClose ts
  some (⟨name, type?, hops?, properties⟩, ts)

/-- The direction that two parts of an arrow make. -/
def Direction.ofMarks : Mark → Mark → Option Direction
  | .arrowLeft, .minus => some .left
  | .minus, .arrowRight => some .right
  | .minus, .minus => some .both
  | _, _ => none

def Token.readMark : List Token → Option (Mark × List Token)
  | .mark m :: ts => some (m, ts)
  | _ => none

/-- The segment at the start. -/
def Grammar.parseSegment (g : Grammar) (ts : List Token) : Option (SegmentTree × List Token) := do
  let (before, ts) ← Token.readMark ts
  let (relationship, ts) ← g.parseRelationship ts
  let (beyond, ts) ← Token.readMark ts
  let direction ← Direction.ofMarks before beyond
  let (node, ts) ← g.parseNode ts
  some (⟨relationship, direction, node⟩, ts)

/-- Whether an arrow begins at the start. -/
def Token.beginsArrow (ts : List Token) : Bool :=
  ts.head? == some (.mark .minus) || ts.head? == some (.mark .arrowLeft)

/-- The segments at the start. -/
def Grammar.parseSegments (g : Grammar) (ts : List Token) :
    Option (List SegmentTree × List Token) :=
  if Token.beginsArrow ts then do
    let (segment, ts) ← g |>.parseSegment ts
    let (segments, ts) ← g |>.parseSegments ts
    some (segment :: segments, ts)
  else some ([], ts)
partial_fixpoint

/-- The pattern at the start. -/
def Grammar.parsePattern (g : Grammar) (ts : List Token) : Option (PatternTree × List Token) := do
  let (start, ts) ← g.parseNode ts
  let (segments, ts) ← g.parseSegments ts
  some (⟨start, segments⟩, ts)

/-! ## Parts of clauses

A projected item may have an alias behind `AS`, and a projection a `DISTINCT` before its items.
Every expression is read at the loosest level. -/

def Grammar.parseItem (g : Grammar) (ts : List Token) : Option (ItemTree × List Token) := do
  let (expr, ts) ← g.parseAt .or ts
  let (alias?, ts) ← Token.readNameAfter "as" ts
  some (⟨expr, alias?⟩, ts)

def Grammar.parseProjection (g : Grammar) (ts : List Token) :
    Option (ProjectionTree × List Token) := do
  let (items, rest) ← Reader.commas g.parseItem (readWord "distinct" ts).2
  some (⟨(readWord "distinct" ts).1, items⟩, rest)

def Grammar.parseSortItem (g : Grammar) (ts : List Token) : Option (SortItemTree × List Token) := do
  let (expr, ts) ← g.parseAt .or ts
  some (⟨expr, (readWord "desc" ts).1⟩, (readWord "desc" ts).2)

/-- The assignment at the start. -/
def Grammar.parseAssignment (g : Grammar) (ts : List Token) :
    Option (AssignmentTree × List Token) := do
  let (target, ts) ← Token.readName ts
  let ts ← after .dot ts
  let (key, ts) ← Token.readName ts
  let ts ← after .equal ts
  let (value, ts) ← g.parseAt .or ts
  some (⟨target, key, value⟩, ts)

/-! ## Clauses and statements

The keyword is read first and tells what comes behind it. A statement is read clause by clause
until no token is left. -/

/-- The tokens behind some words, which must be there in some letter case. -/
def Token.afterWords : List String → List Token → Option (List Token)
  | [], ts => some ts
  | word :: words, ts =>
      match readWord (Name.smallLetters word) ts with
      | (true, ts) => afterWords words ts
      | (false, _) => none

def Keyword.read (ts : List Token) : Option (Keyword × List Token) :=
  all.findSome? fun k => (Token.afterWords k.words ts).map fun ts => (k, ts)

/-- What a clause has behind its keyword. -/
def Grammar.parseBody (g : Grammar) (k : Keyword) (ts : List Token) :
    Option (ClauseTree × List Token) :=
  match k with
  | .matching => do
      let (patterns, ts) ← Reader.commas g.parsePattern ts
      some (.matching false patterns, ts)
  | .optionalMatching => do
      let (patterns, ts) ← Reader.commas g.parsePattern ts
      some (.matching true patterns, ts)
  | .filter => do
      let (condition, ts) ← g.parseAt .or ts
      some (.filter condition, ts)
  | .projecting => do
      let (projection, ts) ← g.parseProjection ts
      some (.projecting projection, ts)
  | .returning => do
      let (projection, ts) ← g.parseProjection ts
      some (.returning projection, ts)
  | .orderBy => do
      let (items, ts) ← Reader.commas g.parseSortItem ts
      some (.orderBy items, ts)
  | .skip => do
      let (count, ts) ← g.parseAt .or ts
      some (.skip count, ts)
  | .limit => do
      let (count, ts) ← g.parseAt .or ts
      some (.limit count, ts)
  | .unwind => do
      let (source, ts) ← g.parseAt .or ts
      let ts ← Token.afterWords ["AS"] ts
      let (target, ts) ← Token.readName ts
      some (.unwind source target, ts)
  | .create => do
      let (patterns, ts) ← Reader.commas g.parsePattern ts
      some (.create patterns, ts)
  | .merge => do
      let (pattern, ts) ← g.parsePattern ts
      some (.merge pattern, ts)
  | .set => do
      let (assignments, ts) ← Reader.commas g.parseAssignment ts
      some (.set assignments, ts)
  | .delete => do
      let (targets, ts) ← Reader.commas Token.readName ts
      some (.delete false targets, ts)
  | .detachDelete => do
      let (targets, ts) ← Reader.commas Token.readName ts
      some (.delete true targets, ts)

def Grammar.parseClause (g : Grammar) (ts : List Token) : Option (ClauseTree × List Token) := do
  let (k, ts) ← Keyword.read ts
  g.parseBody k ts

/-- The clauses of a statement, which are read to the end. -/
def Grammar.parseClauses (g : Grammar) (ts : List Token) : Option (List ClauseTree) :=
  if ts.isEmpty then some []
  else do
    let (c, ts) ← g |>.parseClause ts
    let cs ← g |>.parseClauses ts
    some (c :: cs)
partial_fixpoint

/-- The statement that a text is, in a grammar. -/
def Statement.read (g : Grammar) (text : String) : Option (List ClauseTree) :=
  (scan text.toList).bind g.parseClauses

end GraphQuery
