import GraphQuery.Proofs.Parser.Grammar
import GraphQuery.Proofs.Tree.Expr

set_option autoImplicit false

/-! # Reading expressions

A reader of expressions by recursive descent through the levels of a grammar: groups and arithmetic
operators are read from left to right, a comparison has two operands and no more, and brackets go
back to the loosest level. A reader takes the tokens it needs and leaves the rest.
-/

namespace GraphQuery

/-! ## Tokens that are read by themselves

These readers look at a bounded number of tokens. They give nothing if what they look for is not
there, and leave all the tokens to the next reader. -/

/-- The tokens behind a mark, which must be there. -/
def Token.after (m : Mark) : List Token → Option (List Token)
  | t :: ts => if t = .mark m then some ts else none
  | [] => none

/-- Whether a word is there, and the tokens behind it. -/
def Token.readWord (word : String) : List Token → Bool × List Token
  | t :: ts => if t.isWord word then (true, ts) else (false, t :: ts)
  | [] => (false, [])

/-- The comparison operator at the start. -/
def Comparison.read : List Token → Option (Comparison × List Token)
  | .mark m :: ts =>
      match m with
      | .equal => some (.equal, ts)
      | .notEqual => some (.notEqual, ts)
      | .less => some (.less, ts)
      | .greater => some (.greater, ts)
      | .lessOrEqual => some (.lessOrEqual, ts)
      | .greaterOrEqual => some (.greaterOrEqual, ts)
      | .regex => some (.regex, ts)
      | _ => none
  | t :: ts =>
      if t.isWord "contains" then some (.contains, ts)
      else if t.isWord "in" then some (.member, ts)
      else match Token.readWord "with" ts with
        | (true, ts) =>
            if t.isWord "starts" then some (.startsWith, ts)
            else if t.isWord "ends" then some (.endsWith, ts)
            else none
        | (false, _) => none
  | [] => none

/-- The words `IS NULL` or `IS NOT NULL` at the start, and whether there is a `NOT`. -/
def Token.readIsNull : List Token → Option (Bool × List Token)
  | t :: ts =>
      if t.isWord "is" then
        match readWord "null" (readWord "not" ts).2 with
        | (true, rest) => some ((readWord "not" ts).1, rest)
        | (false, _) => none
      else none
  | [] => none

/-- The arithmetic operator of a mark. -/
def Arithmetic.ofMark : Mark → Option Arithmetic
  | .plus => some .add
  | .minus => some .subtract
  | .star => some .multiply
  | .slash => some .divide
  | .percent => some .modulo
  | .caret => some .power
  | _ => none

/-- The arithmetic operator of a level at the start. -/
def Arithmetic.read (p : Precedence) : List Token → Option (Arithmetic × List Token)
  | .mark m :: ts =>
      match ofMark m with
      | some op => if op.precedence = p then some (op, ts) else none
      | none => none
  | _ => none

def Number.Literal.decode (text : List Char) : Option Value :=
  match read text with
  | (l, []) => l.value?
  | _ => none

/-- The value that a reserved word stands for. -/
def Value.ofWord (word : String) : Option Value :=
  if word = "null" then some .null
  else if word = "true" then some (.boolean true)
  else if word = "false" then some (.boolean false)
  else none

/-- What is between a name and its arguments in a call: the other parts of the name, and the opening
bracket. -/
def Token.readCallTail : List Token → Option (List String × List Token)
  | .mark .parenOpen :: ts => some ([], ts)
  | .mark .dot :: .name part false :: ts =>
      (readCallTail ts).map fun r => (part :: r.1, r.2)
  | _ => none

def Name.ofParts (parts : List String) : String :=
  String.ofList (['.'].intercalate (parts.map String.toList))

/-! ## Expressions

The readers call each other, and each call either takes a token or goes to a tighter level. They
are defined by their equations alone, without fuel and without a measure; that they come to an
end where they have something to read is part of what is proved of them. -/

namespace Tree

/-- The property of a variable that goes on behind its name, or else the variable. -/
def ofName (raw : String) : List Token → Tree × List Token
  | .mark .dot :: .name key _ :: ts => (.property raw key, ts)
  | ts => (.var raw, ts)

end Tree

namespace Grammar

mutual

/-- The expression of a level at the start. -/
def parseAt (g : Grammar) (p : Precedence) (ts : List Token) : Option (Tree × List Token) :=
  match p with
  | .or => g |>.parseGroup .or ts
  | .xor => g |>.parseGroup .xor ts
  | .and => g |>.parseGroup .and ts
  | .comparison => do
      let (left, ts) ← g |>.parseAt (g.below .comparison) ts
      match Comparison.read ts with
      | some (op, ts) => do
          let (right, ts) ← g |>.parseAt (g.below .comparison) ts
          some (.compare op left right, ts)
      | none =>
          match Token.readIsNull ts with
          | some (negated, ts) => some (.isNull left negated, ts)
          | none => some (left, ts)
  | .not =>
      match Token.readWord "not" ts with
      | (true, ts) => do
          let (operand, ts) ← g |>.parseAt .not ts
          some (.not operand, ts)
      | (false, ts) => g |>.parseAt (g.below .not) ts
  | .additive => do
      let (left, ts) ← g |>.parseAt (g.below .additive) ts
      g |>.parseChain .additive left ts
  | .multiplicative => do
      let (left, ts) ← g |>.parseAt (g.below .multiplicative) ts
      g |>.parseChain .multiplicative left ts
  | .power => do
      let (left, ts) ← g |>.parseAt (g.below .power) ts
      g |>.parseChain .power left ts
  | .atom => g |>.parseAtom ts
partial_fixpoint

/-- The group of a connective, or the only operand there is. -/
def parseGroup (g : Grammar) (op : Connective) (ts : List Token) :
    Option (Tree × List Token) := do
  let (operands, ts) ← g |>.parseOperands op ts
  some (Tree.joined op operands, ts)
partial_fixpoint

/-- The operands of a group, of which there is at least one. -/
def parseOperands (g : Grammar) (op : Connective) (ts : List Token) :
    Option (List Tree × List Token) := do
  let (operand, ts) ← g |>.parseAt (g.below op.precedence) ts
  let (operands, ts) ← g |>.parseMore op ts
  some (operand :: operands, ts)
partial_fixpoint

/-- The operands behind an operand of a group. -/
def parseMore (g : Grammar) (op : Connective) (ts : List Token) :
    Option (List Tree × List Token) :=
  match Token.readWord op.word ts with
  | (true, ts) => g |>.parseOperands op ts
  | (false, ts) => some ([], ts)
partial_fixpoint

/-- The rest of a chain of arithmetic operators of a level, of which the left part is there. -/
def parseChain (g : Grammar) (p : Precedence) (left : Tree) (ts : List Token) :
    Option (Tree × List Token) :=
  match Arithmetic.read p ts with
  | some (op, ts) => do
      let (right, ts) ← g |>.parseAt (g.below p) ts
      g |>.parseChain p (.arith op left right) ts
  | none => some (left, ts)
partial_fixpoint

/-- The atom at the start. -/
def parseAtom (g : Grammar) (ts : List Token) : Option (Tree × List Token) :=
  match ts with
  | .number text :: ts => (Number.Literal.decode text).map fun value => (.literal value, ts)
  | .string raw :: ts => some (.literal (.string raw), ts)
  | .mark .dollar :: .name raw _ :: ts => some (.param raw, ts)
  | .mark .parenOpen :: ts => do
      let (t, ts) ← g |>.parseAt .or ts
      let ts ← Token.after .parenClose ts
      some (t, ts)
  | .mark .bracketOpen :: ts => do
      let (items, ts) ← g |>.parseItems .bracketClose ts
      some (.list items, ts)
  | .mark .braceOpen :: ts => do
      let (entries, ts) ← g |>.parseEntries ts
      some (.map entries, ts)
  | .name raw quoted :: ts =>
      if !quoted && Name.isReserved raw then
        (Value.ofWord (Name.smallLetters raw)).map fun value => (.literal value, ts)
      else match if quoted then none else Token.readCallTail ts with
        | some (parts, ts) => do
            let (args, rest) ← g |>.parseItems .parenClose (Token.readWord "distinct" ts).2
            some (.call (Name.ofParts (raw :: parts)) (Token.readWord "distinct" ts).1 args, rest)
        | none => some (Tree.ofName raw ts)
  | _ => none
partial_fixpoint

/-- The expressions up to a closing bracket, with a comma between two of them. -/
def parseItems (g : Grammar) (close : Mark) (ts : List Token) :
    Option (List Tree × List Token) :=
  match Token.after close ts with
  | some ts => some ([], ts)
  | none => g |>.parseSomeItems close ts
partial_fixpoint

/-- The expressions up to a closing bracket, of which there is at least one. -/
def parseSomeItems (g : Grammar) (close : Mark) (ts : List Token) :
    Option (List Tree × List Token) := do
  let (item, ts) ← g |>.parseAt .or ts
  match Token.after .comma ts with
  | some ts => do
      let (items, ts) ← g |>.parseSomeItems close ts
      some (item :: items, ts)
  | none => do
      let ts ← Token.after close ts
      some ([item], ts)
partial_fixpoint

/-- The entries of a map up to its closing brace. -/
def parseEntries (g : Grammar) (ts : List Token) : Option (List (String × Tree) × List Token) :=
  match Token.after .braceClose ts with
  | some ts => some ([], ts)
  | none => g |>.parseSomeEntries ts
partial_fixpoint

/-- The entries of a map up to its closing brace, of which there is at least one. -/
def parseSomeEntries (g : Grammar) (ts : List Token) :
    Option (List (String × Tree) × List Token) :=
  match ts with
  | .name key _ :: .mark .colon :: ts => do
      let (value, ts) ← g |>.parseAt .or ts
      match Token.after .comma ts with
      | some ts => do
          let (entries, ts) ← g |>.parseSomeEntries ts
          some ((key, value) :: entries, ts)
      | none => do
          let ts ← Token.after .braceClose ts
          some ([(key, value)], ts)
  | _ => none
partial_fixpoint

end

end Grammar

/-- The expression that a text is, in a grammar. The text has to be read to its end. -/
def Tree.read (g : Grammar) (text : String) : Option Tree := do
  let ts ← scan text.toList
  match ← g.parseAt .or ts with
  | (t, []) => some t
  | _ => none

end GraphQuery
