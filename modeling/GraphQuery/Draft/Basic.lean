import GraphQuery.Draft.Lexeme
import GraphQuery.Scope.Basic

set_option autoImplicit false

/-! # Drafts

A draft is a text whose names are still open: a list of pieces, each a lexeme, a mention of a
variable or a parameter, or a fault where nothing can be written. Everything that depends on the
scope is in `Scope.fill`, which goes through the pieces from left to right; how a construct of the
language is laid out is in its draft, which depends on nothing else.
-/

namespace GraphQuery

/-- A piece of a draft. -/
inductive Piece where
  | lexeme (l : Lexeme)
  | var (v : Variable)
  | param (p : Param)
  | fault (e : RenderError)

abbrev Draft := List Piece

/-! ## Filling in names

The pieces are gone through once, from left to right. A mention asks the scope for a name, and
what the scope answers is in force for the rest of the draft; a fault ends the draft there and
then. The scope that is handed on has every name that was given before the fault. -/

/-- A name as the lexeme of a mention, unless it is empty. -/
def bindingLexeme (role : NameRole) (name : String) : Except RenderError Lexeme :=
  if name.isEmpty then .error (.emptyName role) else .ok (.binding name)

/-- The lexeme of a piece, with the scope after it. A name that is refused for being empty has been
given all the same. -/
def Piece.lexemeIn (s : Scope) : Piece → Except RenderError Lexeme × Scope
  | .lexeme l => (.ok l, s)
  | .var v =>
      let (named, s) := s.nameVar v
      (named.bind (bindingLexeme .variableName), s)
  | .param p =>
      let (named, s) := s.nameParam p
      (named.bind (bindingLexeme .paramName), s)
  | .fault e => (.error e, s)

namespace Scope

/-- The lexemes of a draft, up to its first fault, with the scope after it. -/
def fill (s : Scope) : Draft → Except RenderError (List Lexeme) × Scope
  | [] => (.ok [], s)
  | p :: ps =>
      match p.lexemeIn s with
      | (.error e, s) => (.error e, s)
      | (.ok l, s) =>
          let (ls, s) := s.fill ps
          (ls.map (l :: ·), s)

/-- The text of a draft, with the scope after it. -/
def render (s : Scope) (d : Draft) : Except RenderError String × Scope :=
  let (ls, s) := s.fill d
  (ls.map Lexeme.textOf, s)

theorem fill_append (s : Scope) (xs ys : Draft) :
    s.fill (xs ++ ys) =
      match s.fill xs with
      | (.error e, s) => (.error e, s)
      | (.ok ls, s) => ((s.fill ys).1.map (ls ++ ·), (s.fill ys).2) := by
  induction xs generalizing s with
  | nil =>
      simp only [List.nil_append, fill]
      rcases s.fill ys with ⟨_ | _, _⟩ <;> rfl
  | cons x xs ih =>
      simp only [List.cons_append, fill]
      rcases h : x.lexemeIn s with ⟨_ | l, s'⟩
      · rfl
      · simp only [ih]
        rcases s'.fill xs with ⟨_ | ls, t⟩
        · rfl
        · simp only [Except.map]
          rcases t.fill ys with ⟨_ | _, _⟩ <;> rfl

end Scope

/-! ## Building drafts

The drafts of the constructs are put together from these alone. `word` and `mark` differ in what
may stand beside them: two words need a blank between them, and a mark needs none. The brackets
and `commas` do not look into the drafts they surround. -/

namespace Draft

/-- A keyword, a word operator or the name of a function. -/
def word (text : String) : Piece := .lexeme (.word text)

/-- Punctuation or an operator made of marks. -/
def mark (text : String) : Piece := .lexeme (.mark text)

def space : Piece := .lexeme (.gap ' ')

/-- Words with a blank between two of them. -/
def words (ws : List String) : Draft := (ws.map word).intersperse space

/-- A label, relationship type or key, which must not be empty. -/
def name (role : NameRole) (raw : String) : Piece :=
  if raw.isEmpty then .fault (.emptyName role) else .lexeme (.name raw)

def commas (ds : List Draft) : Draft := [mark ",", space].intercalate ds

def parens (d : Draft) : Draft := mark "(" :: (d ++ [mark ")"])

def parensIf (needed : Bool) (d : Draft) : Draft := if needed then parens d else d

def brackets (d : Draft) : Draft := mark "[" :: (d ++ [mark "]"])

def braces (d : Draft) : Draft := mark "\x7b" :: (d ++ [mark "\x7d"])

/-- The entry of a map or a property list. -/
def entry (role : NameRole) (key : String) (value : Draft) : Draft :=
  name role key :: mark ":" :: space :: value

end Draft

end GraphQuery
