import GraphQuery.Proofs.Parser.Soundness
import GraphQuery.Proofs.Print.Frame
import GraphQuery.Proofs.Tree.Printed

set_option autoImplicit false

/-! # Brackets that are needed

The printer writes no brackets but those that a reader needs in one of the two grammars
(`Expr.brackets_needed`). Suppose that a text from which one pair was left out is still read as the
tree of the expression. What is read was written for that tree, so the text can be taken apart
frame by frame, from the outermost to the innermost, and the operand that lost its brackets turns
out to be written without any at a level that it does not fit.

The brackets around a group in a group of another connective are written in any case, whether they
are needed or not.
-/

namespace GraphQuery

/-! ## Root tokens

Every tree has a token of its own, which belongs to none of its operands: the operator, or the
first token of an atom. Where this token stands shows that brackets around a tree are not part of
it. -/

theorem Tree.parts_compare (g : Grammar) {op : Comparison} (left right : Tree) {o : Token}
    {os : List Token} (hop : op.tokens = o :: os) :
    (compare op left right).parts g = [.operand (g.below .comparison) left] ++
      .token :: (Part.ofTokens os ++ [.operand (g.below .comparison) right]) := by
  rw [parts, hop]
  rfl

theorem Tree.parts_call (g : Grammar) {name : String} (distinct : Bool) (args : List Tree)
    {o : Token} {os : List Token} (hname : Token.function name = o :: os) :
    (call name distinct args).parts g = .token ::
      ((Part.ofTokens os ++ .bracket .parenOpen :: if distinct then [.token] else []) ++
        (Part.operands .or args ++ [.bracket .parenClose])) := by
  rw [parts, hname]
  simp [Part.ofTokens]

/-- There is a token in a tree that is in none of its operands. -/
theorem Tree.exists_parts (g : Grammar) {t : Tree}
    (h : ∀ op ts, t = .group op ts → 2 ≤ ts.length) :
    ∃ front back, t.parts g = front ++ .token :: back := by
  cases t with
  | var _ | literal _ | property _ _ | param _ | list _ | map _ | not _ => exact ⟨[], _, rfl⟩
  | arith op left right => exact ⟨[_], _, rfl⟩
  | compare op left right => cases op <;> exact ⟨[_], _, rfl⟩
  | isNull operand negated => cases negated <;> exact ⟨[_], _, rfl⟩
  | group op ts =>
      have hlength := h op ts rfl
      cases ts with
      | nil => simp at hlength
      | cons t ts =>
          cases ts with
          | nil => simp at hlength
          | cons u ts =>
              have hcons := Part.operands_cons (g.below op.precedence) t (u :: ts)
              rw [List.flatMap_cons] at hcons
              exact ⟨[_], _, hcons⟩
  | call name distinct args =>
      obtain ⟨o, os, hname, -, -⟩ := Token.exists_cons_function name
      exact ⟨[], _, parts_call g distinct args hname⟩

variable {g : Grammar} {n : Names} {p : Precedence}

/-- What stands behind the first token of a tree that begins with one. -/
theorem Writes.behind_first {t : Tree} {back : List Part} {o : Token} {k : Nat} {bs : List Token}
    (h : Writes g p t (Token.nested k (o :: bs))) (hparts : t.parts g = .token :: back)
    (ho : o.isParen = false) : Fills g back bs := by
  have hnothing : Token.weightOf [] = Token.weightOf [] := rfl
  exact (Fills.of_writes hparts .nil hnothing ho h).2.1

namespace Expr

/-- An expression that is written at a level without brackets fits the level. -/
theorem rank_le_of_writes {e : Expr} (h : e.Every Legible)
    (hw : Writes g p (e.tree n) (e.tokens n)) : g.rank p ≤ g.rank e.precedence := by
  -- a tree with a token of its own: a group of two operands at least
  have hgroup : ∀ op ts, e.tree n = .group op ts → 2 ≤ ts.length := by
    intro op ts ht
    cases e with
    | group op' es =>
        rw [tree] at ht
        obtain ⟨rfl, rfl⟩ := Tree.group.inj ht
        exact two_le_length_spliced n (h.mono fun e he => he.1)
    | literal v =>
        rw [tree] at ht
        cases v <;> simp [Value.tree] at ht
    | _ => simp [tree] at ht
  obtain ⟨front, back, hparts⟩ := Tree.exists_parts g hgroup
  have hfills := fills g n h
  rw [hparts] at hfills
  obtain ⟨hs, bs, htokens, hfront, hrest⟩ := hfills.exists_append
  cases hrest with
  | token ho hback =>
      rw [htokens, ← Token.nested_zero (hs ++ _)] at hw
      rw [← precedence_tree n]
      -- without brackets around it the tree has to fit the level
      exact (Fills.of_writes hparts hfront rfl ho hw).2.2 rfl

/-! ## Operands that bind too loosely

An operand gets brackets for a reason, and the reason is one of the two grammars. For a
comparison and a test for null it is the grammar with a loose `NOT`, for arithmetic and for `NOT`
the one with a tight `NOT`. -/

section Loose

variable {e : Expr}

/-- An operand that needs brackets in a comparison binds too loosely for it where comparisons bind
more tightly than `NOT`. -/
theorem rank_lt_below_comparison (h : e.needsParensInComparison = true) :
    Grammar.looseNot.rank e.precedence <
      Grammar.looseNot.rank (Grammar.looseNot.below .comparison) := by
  revert h
  unfold needsParensInComparison
  cases e.precedence <;> decide

/-- What the printer takes to bind more loosely does so where `NOT` binds more tightly than
comparisons. -/
theorem rank_lt_of_lt {p q : Precedence} (h : p < q) :
    Grammar.tightNot.rank p < Grammar.tightNot.rank q := by
  revert h
  cases p <;> cases q <;> decide

theorem rank_lt_below_of_le {op : Arithmetic} (h : e.precedence ≤ op.precedence) :
    Grammar.tightNot.rank e.precedence <
      Grammar.tightNot.rank (Grammar.tightNot.below op.precedence) := by
  revert h
  cases e.precedence <;> cases op <;> decide

/-- Nothing but a group of another connective gets brackets in a group. -/
theorem needsParensInGroup_eq_false {op : Connective} (h : ∀ op' es, e = .group op' es → op' = op) :
    e.needsParensInGroup op = false := by
  cases e with
  | group op' es =>
      have hop := h op' es rfl
      simp [needsParensInGroup, hop]
  | arith op' l r => cases op <;> cases op' <;> rfl
  | _ => cases op <;> rfl

end Loose

namespace Frame

variable {f : Frame} {e : Expr} {k : Nat} {hs as bs : List Token}

/-! ## One frame

What is printed around a hole is split into what stands before it, the hole, and what stands
behind it. If the whole is written for the tree of the expression, then the part in the middle is
written for the parts that the operand gives. -/

/-- The parts that an operand in the hole gives. -/
def parts (g : Grammar) (t : Tree) : Frame → List Part
  | .compareLeft _ _ | .compareRight _ _ | .isNull _ => [.operand (g.below .comparison) t]
  | .arithLeft op _ => [.operand op.precedence t]
  | .arithRight op _ => [.operand (g.below op.precedence) t]
  | .group op _ _ => Part.operands (g.below op.precedence) (t.spliced op)
  | .not => [.operand .not t]
  | .list _ _ | .map _ _ _ | .call _ _ _ _ => [.operand .or t]

/-- What is printed in the hole is written for these parts. -/
theorem fills_hole (f : Frame) (he : Fills g ((e.tree n).parts g) (e.tokens n)) :
    Fills g (f.parts g (e.tree n)) (Token.parensIf (f.needsParens e) (e.tokens n)) := by
  cases f with
  | compareLeft op s | compareRight op s | isNull negated =>
      exact fills_operand_iff.mpr (writes_operand he rank_below_comparison_le)
  | arithLeft op right => exact fills_operand_iff.mpr (writes_operand he rank_arithmetic_le)
  | arithRight op left => exact fills_operand_iff.mpr (writes_operand he rank_below_arithmetic_le)
  | group op before after => exact fills_spliced op he
  | not => exact fills_operand_iff.mpr (writes_operand he rank_not_le)
  | list before after | map before key after | call name distinct before after =>
      exact fills_operand_iff.mpr (writes_operand he fun _ => Nat.zero_le _)

/-- What is written for the parts of an operand is written for it. -/
theorem writes_of_parts {t : Tree} (h : Fills g (f.parts g t) hs) : Writes g .or t hs := by
  cases f with
  | group op before after =>
      cases t with
      | group op' ts =>
          simp only [parts, Tree.spliced] at h
          split at h
          next hop =>
              subst hop
              exact .bare (Nat.zero_le _) h
          next => exact (fills_operand_iff.mp h).mono (Nat.zero_le _)
      | _ => exact (fills_operand_iff.mp h).mono (Nat.zero_le _)
  | _ => exact (fills_operand_iff.mp h).mono (Nat.zero_le _)

/-- What is in the hole counts for as much in the whole as it counts for by itself. -/
theorem weightOf_fillTokens (f : Frame) (h : Token.weightOf as = Token.weightOf bs) :
    Token.weightOf (f.fillTokens n as) = Token.weightOf (f.fillTokens n bs) := by
  cases f <;>
    simp only [fillTokens, Token.binary, Token.brackets, Token.braces, Token.parens, Token.commas,
      Token.entry, intercalate_append_cons, Token.weightOf_append, Token.weightOf_cons, h]

/-! ### Among other operands

Frames with several siblings: lists, maps, calls and groups. The siblings before the hole have to
be read off first, and they end at one place because a comma or a connective follows each of
them. -/

theorem firm_nil (g : Grammar) : Firm g [] := .of_no_operand fun _ _ => List.not_mem_nil

/-- One of some items with a comma between two of them. -/
theorem fills_item {before after : List Expr} {front back : List Part} {rs bs hs₀ : List Token}
    (hsiblings : ∀ s ∈ before ++ after, Fills g ((s.tree n).parts g) (s.tokens n))
    (hfront : Firm g front) (hback : Part.Closing back) (hrs : Fills g front rs)
    (hbs : Fills g back bs) (hhole : Fills g [.operand .or (e.tree n)] hs₀)
    (hweight : Token.weightOf hs = Token.weightOf hs₀)
    (h : Fills g
      (front ++ (Part.operands .or (before.map (tree n) ++ e.tree n :: after.map (tree n)) ++ back))
      (rs ++ (Token.commas (before.map (tokens n) ++ hs :: after.map (tokens n)) ++ bs))) :
    Fills g [.operand .or (e.tree n)] hs := by
  have hitems : ∀ s ∈ before ++ after, Fills g [.operand .or (s.tree n)] (s.tokens n) :=
    fun s hs => fills_operand_iff.mpr (.bare (Nat.zero_le _) (hsiblings s hs))
  rw [Part.operands_around] at h
  exact Fills.middle_separated rfl hfront hback hrs hbs hitems hhole hweight h

/-- One of the values of a map. -/
theorem fills_entry {before after : List (String × Expr)} {key : String} {hs₀ : List Token}
    (hsiblings : ∀ s ∈ before ++ after, Fills g ((s.2.tree n).parts g) (s.2.tokens n))
    (hhole : Fills g [.operand .or (e.tree n)] hs₀)
    (hweight : Token.weightOf hs = Token.weightOf hs₀)
    (h : Fills g
      (Part.entries ((before.map fun e => (e.1, e.2.tree n)) ++
        (key, e.tree n) :: after.map fun e => (e.1, e.2.tree n)) ++ [.token])
      (Token.commas ((before.map fun e => Token.entry e.1 (e.2.tokens n)) ++
        Token.entry key hs :: after.map fun e => Token.entry e.1 (e.2.tokens n)) ++
          [.mark .braceClose])) :
    Fills g [.operand .or (e.tree n)] hs := by
  have hentries : ∀ s ∈ before ++ after, Fills g [.token, .token, .operand .or (s.2.tree n)]
      (Token.entry s.1 (s.2.tokens n)) :=
    fun s hs => .token rfl (.token rfl (fills_operand_iff.mpr
      (.bare (Nat.zero_le _) (hsiblings s hs))))
  have hentry : Fills g [.token, .token, .operand .or (e.tree n)] (Token.entry key hs₀) :=
    .token rfl (.token rfl hhole)
  have hweight' : Token.weightOf (Token.entry key hs) = Token.weightOf (Token.entry key hs₀) := by
    simp only [Token.entry, Token.weightOf_cons, hweight]
  -- the entry in the middle is found from both ends, with its key
  rw [Part.entries_around] at h
  have hmiddle : Fills g [.token, .token, .operand .or (e.tree n)] (Token.entry key hs) :=
    Fills.middle_separated rfl (firm_nil g) (Or.inr ⟨[], rfl⟩) .nil (.token rfl .nil) hentries
      hentry hweight' h
  -- and its first two tokens are the key and the colon
  cases hmiddle with
  | token _ hrest =>
      cases hrest with
      | token _ hvalue => exact hvalue

/-- One of the operands of a group, of which there are two at least. -/
theorem fills_operand {op : Connective} {before after : List Expr} {hs₀ : List Token}
    (h : (Expr.group op (before ++ e :: after)).Every Legible)
    (hsiblings : ∀ s ∈ before ++ after, Fills g ((s.tree n).parts g) (s.tokens n))
    (hhole : Fills g (Part.operands (g.below op.precedence) ((e.tree n).spliced op)) hs₀)
    (hweight : Token.weightOf hs = Token.weightOf hs₀)
    (hw : Writes g p ((Expr.group op (before ++ e :: after)).tree n)
      (Token.nested k ((group op before after).fillTokens n hs))) :
    Fills g (Part.operands (g.below op.precedence) ((e.tree n).spliced op)) hs := by
  rw [Every] at h
  have hspliced : ∀ s ∈ before ++ e :: after, (s.tree n).spliced op ≠ [] :=
    fun s hs => spliced_tree_ne_nil n ((h.2 s hs).mono fun _ hl => hl.1) op
  have hparts : ((Expr.group op (before ++ e :: after)).tree n).parts g =
      Part.separated ((before.map fun s => Part.operands (g.below op.precedence)
        ((s.tree n).spliced op)) ++ Part.operands (g.below op.precedence) ((e.tree n).spliced op) ::
          after.map fun s => Part.operands (g.below op.precedence) ((s.tree n).spliced op)) := by
    rw [tree, Tree.parts, Part.operands_flatMap _ hspliced, List.map_append, List.map_cons]
  have hoperands : ∀ s ∈ before ++ after, Fills g
      (Part.operands (g.below op.precedence) ((s.tree n).spliced op))
      (Token.parensIf (s.needsParensInGroup op) (s.tokens n)) :=
    fun s hmem => fills_spliced op (hsiblings s hmem)
  cases before with
  | nil =>
      have hlength : 2 ≤ ([] ++ e :: after).length := h.1.1
      cases after with
      | nil => simp at hlength
      | cons s after =>
          -- the operand is found before the first connective
          have hfirst := hparts.trans (Part.separated_cons _ (List.cons_ne_nil _ _))
          have htokens : (group op [] (s :: after)).fillTokens n hs =
              hs ++ .keyword op.text :: [Token.keyword op.text].intercalate
                ((s :: after).map fun s =>
                  Token.parensIf (s.needsParensInGroup op) (s.tokens n)) :=
            intercalate_cons_of_ne_nil _ hs (List.cons_ne_nil _ _)
          rw [htokens] at hw
          exact (Fills.of_writes hfirst hhole hweight rfl hw).1
  | cons s before =>
      -- the operand is found behind the first connective
      obtain ⟨hs', hoperands'⟩ := List.forall_mem_cons.mp hoperands
      have hfirst := hparts.trans (Part.separated_cons _
        (List.append_ne_nil_of_right_ne_nil _ (List.cons_ne_nil _ _)))
      have htokens : (group op (s :: before) after).fillTokens n hs =
          Token.parensIf (s.needsParensInGroup op) (s.tokens n) ++ .keyword op.text ::
            (group op before after).fillTokens n hs :=
        intercalate_cons_of_ne_nil _ _
          (List.append_ne_nil_of_right_ne_nil _ (List.cons_ne_nil _ _))
      rw [htokens] at hw
      have hrest := (Fills.of_writes hfirst hs' rfl rfl hw).2.1
      refine Fills.middle_separated (o := Token.keyword op.text) rfl (firm_nil g)
        (Or.inl fun _ _ => List.not_mem_nil) .nil .nil hoperands' hhole hweight ?_
      rw [List.nil_append, List.nil_append, List.append_nil, List.append_nil]
      exact hrest

/-- One of the arguments of a call. -/
theorem fills_argument {name : String} {distinct : Bool} {before after : List Expr}
    {hs₀ : List Token}
    (hsiblings : ∀ s ∈ before ++ after, Fills g ((s.tree n).parts g) (s.tokens n))
    (hhole : Fills g [.operand .or (e.tree n)] hs₀)
    (hweight : Token.weightOf hs = Token.weightOf hs₀)
    (hw : Writes g p ((Expr.call name distinct (before ++ e :: after)).tree n)
      (Token.nested k ((call name distinct before after).fillTokens n hs))) :
    Fills g [.operand .or (e.tree n)] hs := by
  obtain ⟨o, os, hname, ho, hos⟩ := Token.exists_cons_function name
  rw [tree, List.map_append, List.map_cons, fillTokens, hname] at hw
  have hargs := hw.behind_first (Tree.parts_call g distinct _ hname) ho
  have hdistinct : Fills g (if distinct then [.token] else [])
      (if distinct then [Token.keyword "DISTINCT"] else []) := .optional rfl distinct
  have hfront := (Fills.ofTokens hos).append (.bracket .parenOpen hdistinct)
  refine fills_item hsiblings (.of_no_operand ?_) (Or.inl ?_) hfront (.bracket .parenClose .nil)
    hhole hweight ?_
  · intro p t
    cases distinct <;> simp [Part.ofTokens]
  · simp
  · simpa [Token.parens] using hargs

/-- **What is in the hole is written for the operand** if the whole is written for the expression,
however many brackets are around it. -/
theorem fills_of_writes (h : (f.plug e).Every Legible)
    (hweight : Token.weightOf hs = Token.weightOf (e.tokens n))
    (hw : Writes g p ((f.plug e).tree n) (Token.nested k (f.fillTokens n hs))) :
    Fills g (f.parts g (e.tree n)) hs := by
  obtain ⟨he, hsiblings⟩ := every_plug h
  have hhole := f.fills_hole (fills g n he)
  -- what fills the hole weighs as much as the printed operand, brackets or not
  have hweight : Token.weightOf hs =
      Token.weightOf (Token.parensIf (f.needsParens e) (e.tokens n)) := by
    rw [Token.weightOf_parensIf, hweight]
  have hs' : ∀ s ∈ f.siblings, Fills g ((s.tree n).parts g) (s.tokens n) :=
    fun s hs => fills g n (hsiblings s hs)
  cases f with
  -- in each frame the operand is what stands beside a token of the frame
  | compareLeft op right =>
      obtain ⟨o, os, hop, ho, -⟩ := Token.exists_cons_comparison op
      have hparts := Tree.parts_compare g (e.tree n) (right.tree n) hop
      rw [plug, tree, fillTokens, Token.binary, hop] at hw
      exact (Fills.of_writes hparts hhole hweight ho hw).1
  | compareRight op left =>
      obtain ⟨o, os, hop, ho, hos⟩ := Token.exists_cons_comparison op
      have hleft := writes_operand (hs' left (List.mem_singleton_self _)) rank_below_comparison_le
      have hparts := Tree.parts_compare g (left.tree n) (e.tree n) hop
      rw [plug, tree, fillTokens, Token.binary, hop] at hw
      have hright := (Fills.of_writes hparts (fills_operand_iff.mpr hleft) rfl ho hw).2.1
      exact Fills.of_append (.of_no_operand (Part.not_mem_ofTokens os)) (.ofTokens hos) hright
  | isNull negated =>
      rw [plug, tree] at hw
      cases negated <;> exact (Fills.of_writes rfl hhole hweight rfl hw).1
  | arithLeft op right =>
      rw [plug, tree] at hw
      exact (Fills.of_writes rfl hhole hweight (by cases op <;> rfl) hw).1
  | arithRight op left =>
      have hleft : Writes g op.precedence (left.tree n)
          (Token.parensIf (left.precedence < op.precedence) (left.tokens n)) :=
        writes_operand (hs' left (List.mem_singleton_self _)) rank_arithmetic_le
      rw [plug, tree] at hw
      exact (Fills.of_writes rfl (fills_operand_iff.mpr hleft) rfl (by cases op <;> rfl) hw).2.1
  -- frames with siblings on both sides have lemmas of their own
  | group op before after => exact fills_operand h hs' hhole hweight hw
  | not =>
      rw [plug, tree] at hw
      exact hw.behind_first rfl rfl
  | list before after =>
      rw [plug, tree, List.map_append, List.map_cons] at hw
      have hitems := hw.behind_first (o := .mark .bracketOpen) rfl rfl
      exact fills_item hs' (firm_nil g) (Or.inr ⟨[], rfl⟩) .nil (.token rfl .nil) hhole hweight
        hitems
  | map before key after =>
      rw [plug, tree, List.map_append, List.map_cons] at hw
      have hentries := hw.behind_first (o := .mark .braceOpen) rfl rfl
      refine fills_entry (fun s hmem => hs' s.2 ?_) hhole hweight hentries
      rw [siblings, ← List.map_append]
      exact List.mem_map_of_mem hmem
  | call name distinct before after => exact fills_argument hs' hhole hweight hw

/-- An operand that gets brackets binds too loosely for its place in one of the grammars, unless it
is a group in a group of another connective. -/
theorem exists_grammar (hneeded : f.needsParens e = true)
    (hother : ∀ op before after op' es, f = .group op before after → e = .group op' es → op' = op) :
    ∃ g q, (∀ t, f.parts g t = [.operand q t]) ∧ g.rank e.precedence < g.rank q := by
  cases f with
  | compareLeft op s | compareRight op s | isNull negated =>
      exact ⟨.looseNot, _, fun _ => rfl, rank_lt_below_comparison hneeded⟩
  | arithLeft op right =>
      exact ⟨.tightNot, _, fun _ => rfl, rank_lt_of_lt (of_decide_eq_true hneeded)⟩
  | arithRight op left =>
      exact ⟨.tightNot, _, fun _ => rfl, rank_lt_below_of_le (of_decide_eq_true hneeded)⟩
  | not => exact ⟨.tightNot, _, fun _ => rfl, rank_lt_of_lt (of_decide_eq_true hneeded)⟩
  | group op before after =>
      have hnone := needsParensInGroup_eq_false fun op' es => hother op before after op' es rfl
      exact absurd (hneeded.symm.trans hnone) (by decide)
  | list before after | map before key after | call name distinct before after =>
      exact Bool.noConfusion hneeded

end Frame

/-! ## All frames around a place

The induction is on the frames, from the outermost one. The weight of what is in the hole stays
the same all the way, as only a pair of brackets was left out. -/

/-- What is at a place is written for the operand there, if the whole is written for the
expression. -/
theorem writes_of_within {e : Expr} {fs : List Frame} {ts : List Token}
    (h : (e.within fs).Every Legible) (hweight : Token.weightOf ts = Token.weightOf (e.tokens n))
    (hw : Writes g .or ((e.within fs).tree n) (e.tokensWithin n ts fs)) :
    ∃ k, Writes g .or (e.tree n) (Token.nested k ts) := by
  induction fs generalizing e ts with
  | nil =>
      rw [← Token.nested_zero (e.tokensWithin n ts [])] at hw
      exact ⟨0, hw⟩
  | cons f fs ih =>
      -- brackets change no weight, so the next frame has the same weight with either in its hole
      have hbrackets : Token.weightOf (Token.parensIf (f.needsParens e) ts) =
          Token.weightOf (Token.parensIf (f.needsParens e) (e.tokens n)) := by
        rw [Token.weightOf_parensIf, Token.weightOf_parensIf, hweight]
      have hwhole : Token.weightOf (f.fillTokens n (Token.parensIf (f.needsParens e) ts)) =
          Token.weightOf ((f.plug e).tokens n) := by
        rw [f.tokens_plug]
        exact f.weightOf_fillTokens hbrackets
      -- from the outside to the frame, and through the frame to the place
      obtain ⟨k, hframe⟩ := ih h hwhole hw
      have hparts := Frame.fills_of_writes (every_of_within h)
        (hbrackets.trans (Token.weightOf_parensIf _ _)) hframe
      refine ⟨(f.needsParens e).toNat, ?_⟩
      rw [← Token.parensIf_eq_nested]
      exact Frame.writes_of_parts hparts

/-! ## Without a pair of brackets

The text without the pair scans to the tokens without the pair. So whatever is read from it is
written with these tokens, and they are not those of the expression. -/

section Without

variable {x : Expr} {f : Frame} {fs : List Frame}

theorem scan_without (n : Names) (h : ((f.plug x).within fs).Every Named) :
    scan ((f.plug x).printWithin n (f.fill n (x.print n)) fs) =
      some ((f.plug x).tokensWithin n (f.fillTokens n (x.tokens n)) fs) := by
  have hplug := every_of_within h
  have hx : ScansAs (x.print n) (x.tokens n) := x.scans n (Frame.every_plug hplug).1
  exact (scans_within h (Frame.scans_fill hplug hx) [] clear_nil).scan_eq

/-- The tokens without a needed pair of brackets are not written for the expression. -/
theorem not_writes_without (n : Names) (h : ((f.plug x).within fs).Every Legible)
    (hneeded : f.needsParens x = true)
    (hother : ∀ op before after op' es,
      f = .group op before after → x = .group op' es → op' = op) :
    ∃ g, ¬ Writes g .or (((f.plug x).within fs).tree n)
      ((f.plug x).tokensWithin n (f.fillTokens n (x.tokens n)) fs) := by
  obtain ⟨g, q, hparts, hlt⟩ := Frame.exists_grammar hneeded hother
  refine ⟨g, fun hw => ?_⟩
  have hweight : Token.weightOf (f.fillTokens n (x.tokens n)) =
      Token.weightOf ((f.plug x).tokens n) := by
    rw [f.tokens_plug]
    exact f.weightOf_fillTokens (Token.weightOf_parensIf _ _).symm
  obtain ⟨k, hframe⟩ := writes_of_within h hweight hw
  have hplace := Frame.fills_of_writes (every_of_within h) rfl hframe
  rw [hparts, fills_operand_iff] at hplace
  -- the operand is written without brackets at a level for which it binds too loosely
  have hfit := rank_le_of_writes (Frame.every_plug (every_of_within h)).1 hplace
  exact absurd hfit (Nat.not_le_of_lt hlt)

/-- **The printer writes no brackets that are not needed.** A text from which one pair of the
brackets around an operand is left out is read as something else, or not at all, in one of the two
grammars. This is not said of the brackets around a group in a group of another connective. -/
theorem brackets_needed {s s' : Scope} {text : String}
    (hreadable : ((f.plug x).within fs).Every Readable)
    (h : s.render ((f.plug x).within fs).draft = (.ok text, s'))
    (hneeded : f.needsParens x = true)
    (hother : ∀ op before after op' es,
      f = .group op before after → x = .group op' es → op' = op) :
    ∃ front back,
      (∀ cs, (f.plug x).printWithin s'.names (f.fill s'.names cs) fs = front ++ (cs ++ back)) ∧
        text.toList = front ++ (Text.parens (x.print s'.names) ++ back) ∧
        ∃ g, Tree.read g (String.ofList (front ++ (x.print s'.names ++ back))) ≠
          some (((f.plug x).within fs).tree s'.names) := by
  obtain ⟨-, hsound, htext⟩ := render_ok h
  obtain ⟨front, back, hwithin⟩ := exists_printWithin s'.names (f.plug x) fs
  obtain ⟨front', back', hfill⟩ := f.exists_fill s'.names
  -- the frames around and the frame itself leave one hole
  have hprint : ∀ cs, (f.plug x).printWithin s'.names (f.fill s'.names cs) fs =
      front ++ front' ++ (cs ++ (back' ++ back)) := by
    intro cs
    rw [hwithin, hfill]
    simp
  -- in one of the grammars the tokens without the pair are not written for the tree
  obtain ⟨g, hg⟩ := not_writes_without s'.names (every_legible hreadable hsound) hneeded hother
  refine ⟨front ++ front', back' ++ back, hprint, ?_, g, fun hread => ?_⟩
  · rw [htext, print_within, f.print_plug, hneeded]
    exact hprint _
  · refine hg (Tree.writes_of_read hread ?_)
    rw [String.toList_ofList, ← hprint]
    exact scan_without s'.names (hreadable.mono fun _ he => he.named)

end Without

/-- The right operand of a difference, in a negated comparison. -/
def difference : Expr := .arith .subtract (.literal (.integer (-1))) (.param ⟨2, none, .null⟩)

theorem brackets_needed_difference :
    let f : Frame := .arithRight .subtract (.property ⟨1, .node, none⟩ "a")
    let fs : List Frame := [.compareLeft .less (.literal (.integer 2)), .not]
    ((f.plug difference).within fs).Every Readable ∧ f.needsParens difference = true ∧
      ∃ text s' front back g,
        (Scope.new .standard).render ((f.plug difference).within fs).draft = (.ok text, s') ∧
          text.toList = front ++ (Text.parens (difference.print s'.names) ++ back) ∧
          Tree.read g (String.ofList (front ++ (difference.print s'.names ++ back))) ≠
            some (((f.plug difference).within fs).tree s'.names) := by
  intro f fs
  have hreadable : ((f.plug difference).within fs).Every Readable := by
    simp [f, fs, Frame.plug, within, difference, Every, Readable]
  have hneeded : f.needsParens difference = true := by decide
  have hrender : ∃ text s', (Scope.new .standard).render ((f.plug difference).within fs).draft =
      (.ok text, s') := ⟨_, _, rfl⟩
  obtain ⟨text, s', h⟩ := hrender
  obtain ⟨front, back, -, htext, g, hread⟩ := brackets_needed hreadable h hneeded
    fun op before after op' es hf _ => Frame.noConfusion hf
  exact ⟨hreadable, hneeded, text, s', front, back, g, h, htext, hread⟩

end Expr

end GraphQuery
