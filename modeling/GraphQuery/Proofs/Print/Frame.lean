import GraphQuery.Proofs.Token.Expr

set_option autoImplicit false

/-! # Places in expressions

A place of an operand in an expression is given by the frames around it, from the innermost to the
outermost. A frame is an expression with a hole in the place of one operand, and the printer decides
for every frame whether the operand in it needs brackets. What is printed around a place does not
depend on what is printed at it (`Expr.exists_printWithin`), so any text can be put there, with or
without the brackets that the printer writes.
-/

namespace GraphQuery

namespace Expr

/-- An expression with a hole in the place of one operand. -/
inductive Frame where
  | compareLeft (op : Comparison) (right : Expr)
  | compareRight (op : Comparison) (left : Expr)
  | isNull (negated : Bool)
  | arithLeft (op : Arithmetic) (right : Expr)
  | arithRight (op : Arithmetic) (left : Expr)
  | group (op : Connective) (before after : List Expr)
  | not
  | list (before after : List Expr)
  | map (before : List (String × Expr)) (key : String) (after : List (String × Expr))
  | call (name : String) (distinct : Bool) (before after : List Expr)

namespace Frame

/-- The expression with an operand in the hole. -/
def plug (e : Expr) : Frame → Expr
  | .compareLeft op right => .compare op e right
  | .compareRight op left => .compare op left e
  | .isNull negated => .isNull e negated
  | .arithLeft op right => .arith op e right
  | .arithRight op left => .arith op left e
  | .group op before after => .group op (before ++ e :: after)
  | .not => .not e
  | .list before after => .list (before ++ e :: after)
  | .map before key after => .map (before ++ (key, e) :: after)
  | .call name distinct before after => .call name distinct (before ++ e :: after)

/-- Whether the printer writes brackets around an operand in the hole. -/
def needsParens (e : Expr) : Frame → Bool
  | .compareLeft _ _ | .compareRight _ _ | .isNull _ => e.needsParensInComparison
  | .arithLeft op _ => e.precedence < op.precedence
  | .arithRight op _ => e.precedence ≤ op.precedence
  | .group op _ _ => e.needsParensInGroup op
  | .not => e.precedence < .not
  | .list _ _ | .map _ _ _ | .call _ _ _ _ => false

/-- The operands beside the hole. -/
def siblings : Frame → List Expr
  | .compareLeft _ e | .compareRight _ e | .arithLeft _ e | .arithRight _ e => [e]
  | .isNull _ | .not => []
  | .group _ before after | .list before after | .call _ _ before after => before ++ after
  | .map before _ after => before.map Prod.snd ++ after.map Prod.snd

/-- What holds of all expressions in an expression holds of those at a place in it and beside it. -/
theorem every_plug {p : Expr → Prop} {e : Expr} {f : Frame} (h : (f.plug e).Every p) :
    e.Every p ∧ ∀ s ∈ f.siblings, s.Every p := by
  cases f with
  | compareLeft op right | arithLeft op right =>
      rw [plug, Every] at h
      exact ⟨h.2.1, List.forall_mem_singleton.mpr h.2.2⟩
  | compareRight op left | arithRight op left =>
      rw [plug, Every] at h
      exact ⟨h.2.2, List.forall_mem_singleton.mpr h.2.1⟩
  | isNull negated | not =>
      rw [plug, Every] at h
      exact ⟨h.2, fun s hs => absurd hs List.not_mem_nil⟩
  | group op before after | list before after | call name distinct before after =>
      rw [plug, Every] at h
      obtain ⟨hbefore, hrest⟩ := List.forall_mem_append.mp h.2
      obtain ⟨he, hafter⟩ := List.forall_mem_cons.mp hrest
      exact ⟨he, List.forall_mem_append.mpr ⟨hbefore, hafter⟩⟩
  | map before key after =>
      rw [plug, Every] at h
      obtain ⟨hbefore, hrest⟩ := List.forall_mem_append.mp h.2
      obtain ⟨he, hafter⟩ := List.forall_mem_cons.mp hrest
      exact ⟨he, List.forall_mem_append.mpr
        ⟨List.forall_mem_map.mpr hbefore, List.forall_mem_map.mpr hafter⟩⟩

/-! ## Printing around a hole

The text of a frame is the text of the expression with the operand replaced. It is written once
with characters and once with tokens in the hole; brackets around the operand are not part of the
frame, so they can be left out. -/

/-- The text of the expression with a text in the hole. -/
def fill (n : Names) (cs : List Char) : Frame → List Char
  | .compareLeft op right =>
      Text.binary cs op.print (Text.parensIf right.needsParensInComparison (right.print n))
  | .compareRight op left =>
      Text.binary (Text.parensIf left.needsParensInComparison (left.print n)) op.print cs
  | .isNull negated =>
      cs ++ ' ' :: Text.words (if negated then ["IS", "NOT", "NULL"] else ["IS", "NULL"])
  | .arithLeft op right =>
      Text.binary cs op.print (Text.parensIf (right.precedence ≤ op.precedence) (right.print n))
  | .arithRight op left =>
      Text.binary (Text.parensIf (left.precedence < op.precedence) (left.print n)) op.print cs
  | .group op before after =>
      op.print.intercalate
        ((before.map fun e => Text.parensIf (e.needsParensInGroup op) (e.print n)) ++
          cs :: after.map fun e => Text.parensIf (e.needsParensInGroup op) (e.print n))
  | .not => "NOT".toList ++ ' ' :: cs
  | .list before after =>
      Text.brackets (Text.commas (before.map (print n) ++ cs :: after.map (print n)))
  | .map before key after =>
      Text.braces (Text.commas ((before.map fun e => Text.entry e.1 (e.2.print n)) ++
        Text.entry key cs :: after.map fun e => Text.entry e.1 (e.2.print n)))
  | .call name distinct before after =>
      name.toList ++ Text.parens ((if distinct then "DISTINCT".toList ++ [' '] else []) ++
        Text.commas (before.map (print n) ++ cs :: after.map (print n)))

/-- The tokens of the expression with tokens in the hole. -/
def fillTokens (n : Names) (ts : List Token) : Frame → List Token
  | .compareLeft op right =>
      Token.binary ts op.tokens (Token.parensIf right.needsParensInComparison (right.tokens n))
  | .compareRight op left =>
      Token.binary (Token.parensIf left.needsParensInComparison (left.tokens n)) op.tokens ts
  | .isNull negated => ts ++ Token.words (if negated then ["IS", "NOT", "NULL"] else ["IS", "NULL"])
  | .arithLeft op right =>
      Token.binary ts [.mark op.mark]
        (Token.parensIf (right.precedence ≤ op.precedence) (right.tokens n))
  | .arithRight op left =>
      Token.binary (Token.parensIf (left.precedence < op.precedence) (left.tokens n))
        [.mark op.mark] ts
  | .group op before after =>
      [Token.keyword op.text].intercalate
        ((before.map fun e => Token.parensIf (e.needsParensInGroup op) (e.tokens n)) ++
          ts :: after.map fun e => Token.parensIf (e.needsParensInGroup op) (e.tokens n))
  | .not => .keyword "NOT" :: ts
  | .list before after =>
      Token.brackets (Token.commas (before.map (tokens n) ++ ts :: after.map (tokens n)))
  | .map before key after =>
      Token.braces (Token.commas ((before.map fun e => Token.entry e.1 (e.2.tokens n)) ++
        Token.entry key ts :: after.map fun e => Token.entry e.1 (e.2.tokens n)))
  | .call name distinct before after =>
      Token.function name ++ Token.parens ((if distinct then [.keyword "DISTINCT"] else []) ++
        Token.commas (before.map (tokens n) ++ ts :: after.map (tokens n)))

variable {n : Names} {e : Expr} {f : Frame}

theorem print_plug (n : Names) (e : Expr) (f : Frame) :
    (f.plug e).print n = f.fill n (Text.parensIf (f.needsParens e) (e.print n)) := by
  cases f with
  | group op before after | list before after | map before key after
  | call name distinct before after =>
      rw [plug, print, fill, List.map_append, List.map_cons]
      rfl
  | _ =>
      rw [plug, print]
      rfl

theorem tokens_plug (n : Names) (e : Expr) (f : Frame) :
    (f.plug e).tokens n = f.fillTokens n (Token.parensIf (f.needsParens e) (e.tokens n)) := by
  cases f with
  | group op before after | list before after | map before key after
  | call name distinct before after =>
      rw [plug, tokens, fillTokens, List.map_append, List.map_cons]
      rfl
  | _ =>
      rw [plug, tokens]
      rfl

theorem exists_commas (css dss : List (List Char)) :
    ∃ front back, ∀ cs, Text.commas (css ++ cs :: dss) = front ++ (cs ++ back) :=
  ⟨_, _, fun cs => intercalate_append_cons _ css cs dss⟩

/-- What is printed around a hole does not depend on what is in it. -/
theorem exists_fill (n : Names) (f : Frame) :
    ∃ front back, ∀ cs, f.fill n cs = front ++ (cs ++ back) := by
  -- what stands before the hole and behind it, frame by frame
  cases f with
  | compareLeft op right | arithLeft op right | isNull negated => exact ⟨[], _, fun cs => rfl⟩
  | compareRight op left =>
      refine ⟨Text.parensIf left.needsParensInComparison (left.print n) ++
        ' ' :: (op.print ++ [' ']), [], fun cs => ?_⟩
      simp [fill, Text.binary]
  | arithRight op left =>
      refine ⟨Text.parensIf (left.precedence < op.precedence) (left.print n) ++
        ' ' :: (op.print ++ [' ']), [], fun cs => ?_⟩
      simp [fill, Text.binary]
  | group op before after => exact ⟨_, _, fun cs => intercalate_append_cons _ _ _ _⟩
  | not => exact ⟨"NOT".toList ++ [' '], [], fun cs => by simp [fill]⟩
  | list before after =>
      obtain ⟨front, back, h⟩ := exists_commas (before.map (print n)) (after.map (print n))
      refine ⟨'[' :: front, back ++ [']'], fun cs => ?_⟩
      rw [fill, h]
      simp [Text.brackets]
  | map before key after =>
      obtain ⟨front, back, h⟩ := exists_commas (before.map fun e => Text.entry e.1 (e.2.print n))
        (after.map fun e => Text.entry e.1 (e.2.print n))
      refine ⟨'\x7b' :: (front ++ (Name.written key ++ [':', ' '])), back ++ ['\x7d'],
        fun cs => ?_⟩
      rw [fill, h]
      simp [Text.braces, Text.entry]
  | call name distinct before after =>
      obtain ⟨front, back, h⟩ := exists_commas (before.map (print n)) (after.map (print n))
      refine ⟨name.toList ++
        '(' :: ((if distinct then "DISTINCT".toList ++ [' '] else []) ++ front),
        back ++ [')'], fun cs => ?_⟩
      rw [fill, h]
      simp only [Text.parens, List.append_assoc, List.cons_append]

end Frame

end Expr

/-! ## Scanning around a hole

Whatever is put in the hole, the text around it is scanned as before, if the tokens of what is
put there are the same wherever a clear text follows. -/

/-- Lists with one text among the others. -/
theorem ScansAs.intercalate_around {α : Type} {sep : List Char} {sepTokens : List Token}
    (hsep : ∀ rest, Scans sep sepTokens rest) (hclear : ∀ rest, Clear (sep ++ rest))
    {f : α → List Char} {g : α → List Token} {before after : List α} {cs : List Char}
    {ts : List Token} (h : ∀ x ∈ before ++ after, ScansAs (f x) (g x)) (hcs : ScansAs cs ts) :
    ScansAs (sep.intercalate (before.map f ++ cs :: after.map f))
      (sepTokens.intercalate (before.map g ++ ts :: after.map g)) := by
  -- the texts with their tokens as one list
  have hall : ∀ x ∈ (before.map fun x => (f x, g x)) ++ (cs, ts) :: after.map fun x => (f x, g x),
      ScansAs x.1 x.2 := by
    obtain ⟨hbefore, hafter⟩ := List.forall_mem_append.mp h
    refine List.forall_mem_append.mpr ⟨List.forall_mem_map.mpr hbefore, ?_⟩
    exact List.forall_mem_cons.mpr ⟨hcs, List.forall_mem_map.mpr hafter⟩
  have hscans := ScansAs.intercalate hsep hclear hall
  simpa [Function.comp_def] using hscans

namespace Expr.Frame

variable {n : Names} {e : Expr} {f : Frame} {cs : List Char} {ts : List Token}

theorem scans_commas {α : Type} {f : α → List Char} {g : α → List Token} {before after : List α}
    (h : ∀ x ∈ before ++ after, ScansAs (f x) (g x)) (hcs : ScansAs cs ts) :
    ScansAs (Text.commas (before.map f ++ cs :: after.map f))
      (Token.commas (before.map g ++ ts :: after.map g)) := by
  have hcomma : Mark.Alone ',' .comma := ⟨by decide, rfl, by decide⟩
  exact ScansAs.intercalate_around (fun rest => (hcomma.scans _).cons (scans_space rest))
    (fun rest => clear_cons (by decide) _) h hcs

/-- **Scanning what is printed around a hole** gives the tokens around it, whatever is in it. -/
theorem scans_fill (h : (f.plug e).Every Named) (hcs : ScansAs cs ts) :
    ScansAs (f.fill n cs) (f.fillTokens n ts) := by
  have hs : ∀ s ∈ f.siblings, ScansAs (s.print n) (s.tokens n) :=
    fun s hs => s.scans n ((every_plug h).2 s hs)
  -- each frame is laid out as its expression is, with the siblings around the hole
  cases f with
  | compareLeft op right =>
      exact hcs.binary op.scans ((hs right (List.mem_singleton_self _)).parensIf _)
  | compareRight op left =>
      exact ((hs left (List.mem_singleton_self _)).parensIf _).binary op.scans hcs
  | isNull negated => exact hcs.spaced (ScansAs.words (by cases negated <;> decide))
  | arithLeft op right =>
      exact hcs.binary op.scans ((hs right (List.mem_singleton_self _)).parensIf _)
  | arithRight op left =>
      exact ((hs left (List.mem_singleton_self _)).parensIf _).binary op.scans hcs
  | group op before after =>
      exact ScansAs.intercalate_around op.scans (fun rest => clear_space _)
        (fun s hmem => (hs s hmem).parensIf _) hcs
  | not => exact (ScansAs.keyword (by decide)).spaced hcs
  | list before after => exact ScansAs.of_scans (scans_commas hs hcs).brackets
  | map before key after =>
      refine ScansAs.of_scans (scans_commas (fun x hx => ?_) (hcs.entry key)).braces
      refine (hs x.2 ?_).entry x.1
      rw [siblings, ← List.map_append]
      exact List.mem_map_of_mem hx
  | call name distinct before after =>
      have hname : Name.isDotted name = true := h.self
      refine (ScansAs.function hname).append (ScansAs.of_scans (ScansAs.parens ?_))
        fun rest _ => clear_cons (by decide) _
      exact scans_optional (by decide) distinct (scans_commas hs hcs)

end Expr.Frame

/-! ## Places

The frames around a place are listed from the innermost one. What is at the place is printed
first and each frame is put around it. -/

namespace Expr

variable {n : Names}

/-- The expression with an expression in the frames around a place. -/
def within (e : Expr) : List Frame → Expr
  | [] => e
  | f :: fs => (f.plug e).within fs

/-- The text of an expression with a text at the place of an operand. -/
def printWithin (n : Names) (e : Expr) (cs : List Char) : List Frame → List Char
  | [] => cs
  | f :: fs => (f.plug e).printWithin n (f.fill n (Text.parensIf (f.needsParens e) cs)) fs

def tokensWithin (n : Names) (e : Expr) (ts : List Token) : List Frame → List Token
  | [] => ts
  | f :: fs => (f.plug e).tokensWithin n (f.fillTokens n (Token.parensIf (f.needsParens e) ts)) fs

theorem every_of_within {p : Expr → Prop} {e : Expr} {fs : List Frame}
    (h : (e.within fs).Every p) : e.Every p := by
  induction fs generalizing e with
  | nil => exact h
  | cons f fs ih => exact (Frame.every_plug (ih h)).1

theorem print_within (n : Names) (e : Expr) (fs : List Frame) :
    (e.within fs).print n = e.printWithin n (e.print n) fs := by
  induction fs generalizing e with
  | nil => rfl
  | cons f fs ih => rw [within, ih, Frame.print_plug, printWithin]

theorem exists_printWithin (n : Names) (e : Expr) (fs : List Frame) :
    ∃ front back, ∀ cs, e.printWithin n cs fs = front ++ (cs ++ back) := by
  induction fs generalizing e with
  | nil => exact ⟨[], [], fun cs => by simp [printWithin]⟩
  | cons f fs ih =>
      obtain ⟨front, back, h⟩ := ih (f.plug e)
      obtain ⟨front', back', h'⟩ := f.exists_fill n
      cases hneeded : f.needsParens e with
      | true =>
          refine ⟨front ++ (front' ++ ['(']), ')' :: (back' ++ back), fun cs => ?_⟩
          rw [printWithin, h, h', hneeded]
          simp [Text.parensIf, Text.parens]
      | false =>
          refine ⟨front ++ front', back' ++ back, fun cs => ?_⟩
          rw [printWithin, h, h', hneeded]
          simp [Text.parensIf]

theorem scans_within {e : Expr} {fs : List Frame} (h : (e.within fs).Every Named)
    {cs : List Char} {ts : List Token} (hcs : ScansAs cs ts) :
    ScansAs (e.printWithin n cs fs) (e.tokensWithin n ts fs) := by
  induction fs generalizing e cs ts with
  | nil => exact hcs
  | cons f fs ih => exact ih h (Frame.scans_fill (every_of_within h) (hcs.parensIf _))

end Expr

end GraphQuery
