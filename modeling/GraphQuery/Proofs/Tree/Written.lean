import GraphQuery.Proofs.Parser.Reading
import Mathlib.Algebra.BigOperators.Group.List.Basic
import Mathlib.Algebra.Group.Prod

set_option autoImplicit false

/-! # What is written for a tree

A tree is written part by part (`Tree.parts`): tokens of its own, and its operands, each at a level.
An operand may stand in round brackets, and it has to where it binds more loosely than its level.
`Fills g parts ts` says that some tokens are written for some parts.

How many pairs of brackets there are is free, and so the tokens of a tree are not determined. What
is determined is their *weight*, in which a pair of brackets counts for nothing. From it follows
where the operands of a tree begin and end (`Fills.of_writes`): the tokens that are written for a
tree can be taken apart at any token that is not in one of its operands, and the brackets around the
tree are found by counting.
-/

namespace GraphQuery

/-! ## Brackets

Round brackets are the only tokens that may be there or not. The name of a function and an
operator have none of their own. -/

namespace Token

def isParen : Token → Bool
  | .mark .parenOpen | .mark .parenClose => true
  | _ => false

/-- Tokens in some pairs of round brackets. -/
def nested (k : Nat) (ts : List Token) : List Token :=
  List.replicate k (.mark .parenOpen) ++ (ts ++ List.replicate k (.mark .parenClose))

theorem nested_zero (ts : List Token) : nested 0 ts = ts := by
  simp [nested]

theorem parens_nested (k : Nat) (ts : List Token) : parens (nested k ts) = nested (k + 1) ts := by
  rw [nested, nested, List.replicate_succ, List.replicate_succ', parens]
  simp

theorem parensIf_eq_nested (needed : Bool) (ts : List Token) :
    parensIf needed ts = nested needed.toNat ts := by
  cases needed with
  | false => exact (nested_zero ts).symm
  | true =>
      have h := parens_nested 0 ts
      rwa [nested_zero] at h

theorem isParen_function (name : String) : ∀ t ∈ function name, t.isParen = false := by
  obtain ⟨p, ps, hparts⟩ := List.exists_cons_of_ne_nil (Name.dotParts_ne_nil name.toList)
  rw [function_eq hparts]
  refine List.forall_mem_cons.mpr ⟨rfl, fun t ht => ?_⟩
  obtain ⟨part, -, ht⟩ := List.mem_flatMap.mp ht
  simp only [List.mem_cons, List.not_mem_nil, or_false] at ht
  rcases ht with rfl | rfl <;> rfl

theorem isParen_comparison (op : Comparison) : ∀ t ∈ op.tokens, t.isParen = false := by
  cases op <;> decide

/-- The name of a function begins with some token. -/
theorem exists_cons_function (name : String) :
    ∃ o os, function name = o :: os ∧ o.isParen = false ∧ ∀ t ∈ os, t.isParen = false := by
  obtain ⟨p, ps, hparts⟩ := List.exists_cons_of_ne_nil (Name.dotParts_ne_nil name.toList)
  have hparen := isParen_function name
  rw [function_eq hparts] at hparen
  exact ⟨_, _, function_eq hparts, List.forall_mem_cons.mp hparen⟩

theorem exists_cons_comparison (op : Comparison) :
    ∃ o os, op.tokens = o :: os ∧ o.isParen = false ∧ ∀ t ∈ os, t.isParen = false := by
  cases op <;> exact ⟨_, _, rfl, rfl, by decide⟩

/-! ## Weights

A weight is a size and a height: the number of tokens that are no brackets, and how far the
brackets lead in. Adding weights is adding both. Two ways of splitting the same tokens are the
same if the tokens before the split have the same size and a token that is no bracket follows. -/

/-- What a token counts for: one if it is no round bracket, and otherwise nothing but a step in or
out. -/
def weight : Token → Nat × Int
  | .mark .parenOpen => (0, 1)
  | .mark .parenClose => (0, -1)
  | _ => (1, 0)

def weightOf (ts : List Token) : Nat × Int := (ts.map weight).sum

theorem weightOf_cons (t : Token) (ts : List Token) : weightOf (t :: ts) = t.weight + weightOf ts :=
  List.sum_cons

theorem weightOf_append (ts us : List Token) : weightOf (ts ++ us) = weightOf ts + weightOf us := by
  simp [weightOf]

theorem weight_of_not_isParen {t : Token} (h : t.isParen = false) : t.weight = (1, 0) := by
  unfold isParen at h
  unfold weight
  split <;> simp_all

theorem weightOf_replicate (k : Nat) :
    weightOf (List.replicate k (.mark .parenOpen)) = (0, (k : Int)) ∧
      weightOf (List.replicate k (.mark .parenClose)) = (0, -(k : Int)) := by
  simp [weightOf, weight]

/-- Pairs of brackets count for nothing. -/
theorem weightOf_nested (k : Nat) (ts : List Token) : weightOf (nested k ts) = weightOf ts := by
  rw [nested, weightOf_append, weightOf_append, (weightOf_replicate k).1, (weightOf_replicate k).2]
  ext <;> simp

theorem weightOf_parensIf (needed : Bool) (ts : List Token) :
    weightOf (parensIf needed ts) = weightOf ts := by
  rw [parensIf_eq_nested, weightOf_nested]

/-- Tokens are taken apart in one way at a token that is no round bracket, given how much stands
before it. -/
theorem eq_of_append_eq {as bs cs ds : List Token} {t u : Token} (ht : t.isParen = false)
    (hu : u.isParen = false) (h : as ++ t :: cs = bs ++ u :: ds)
    (hsize : (weightOf as).1 = (weightOf bs).1) : as = bs ∧ t = u ∧ cs = ds := by
  -- if one of the two were longer, it would have the token between the two in it
  have hlonger : ∀ {xs ys : List Token} {v : Token}, v.isParen = false →
      (weightOf (xs ++ v :: ys)).1 ≠ (weightOf xs).1 := by
    intro xs ys v hv
    rw [weightOf_append, weightOf_cons, weight_of_not_isParen hv, Prod.fst_add, Prod.fst_add]
    omega
  rcases List.append_eq_append_iff.mp h with ⟨ws, rfl, hws⟩ | ⟨ws, rfl, hws⟩
  · cases ws with
    | nil =>
        obtain ⟨rfl, rfl⟩ := List.cons.inj hws
        simp
    | cons w ws =>
        obtain ⟨rfl, -⟩ := List.cons.inj hws
        exact absurd hsize.symm (hlonger ht)
  · cases ws with
    | nil =>
        obtain ⟨rfl, rfl⟩ := List.cons.inj hws
        simp
    | cons w ws =>
        obtain ⟨rfl, -⟩ := List.cons.inj hws
        exact absurd hsize (hlonger hu)

end Token

/-! ## The parts of a tree

A part is a token of its own or an operand with the level that it stands at. Which token it is
does not matter, only that there is one. -/

/-- A part of what is written for a tree. -/
inductive Part where
  /-- A token that is no round bracket. -/
  | token
  /-- A round bracket of a call. -/
  | bracket (m : Mark)
  /-- A tree at a level. -/
  | operand (p : Precedence) (t : Tree)

namespace Part

/-- Parts for some tokens. -/
def ofTokens (ts : List Token) : List Part := ts.map fun _ => token

/-- Parts with a token between two of them. -/
def separated (pss : List (List Part)) : List Part := [token].intercalate pss

/-- Trees at a level with a token between two of them. -/
def operands (p : Precedence) (ts : List Tree) : List Part :=
  separated (ts.map fun t => [operand p t])

def entries (es : List (String × Tree)) : List Part :=
  separated (es.map fun e => [token, token, operand .or e.2])

theorem not_mem_ofTokens (ts : List Token) (p : Precedence) (t : Tree) :
    operand p t ∉ ofTokens ts := by
  simp [ofTokens]

theorem operands_cons (p : Precedence) (t : Tree) (ts : List Tree) :
    operands p (t :: ts) = operand p t :: ts.flatMap fun t => [token, operand p t] := by
  rw [operands, separated, List.map_cons, intercalate_cons, List.flatMap_map]
  rfl

theorem entries_cons (e : String × Tree) (es : List (String × Tree)) :
    entries (e :: es) = token :: token :: operand .or e.2 ::
      es.flatMap fun e => [token, token, token, operand .or e.2] := by
  rw [entries, separated, List.map_cons, intercalate_cons, List.flatMap_map]
  rfl

theorem token_operands (p : Precedence) {ts : List Tree} (h : ts ≠ []) :
    token :: operands p ts = ts.flatMap fun t => [token, operand p t] := by
  have hne : (ts.map fun t => [operand p t]) ≠ [] := by simpa using h
  have happend := append_intercalate [token] hne
  rw [List.flatMap_map] at happend
  exact happend

theorem token_entries {es : List (String × Tree)} (h : es ≠ []) :
    token :: entries es = es.flatMap fun e => [token, token, token, operand .or e.2] := by
  have hne : (es.map fun e => [token, token, operand .or e.2]) ≠ [] := by simpa using h
  have happend := append_intercalate [token] hne
  rw [List.flatMap_map] at happend
  exact happend

/-- One tree among others. -/
theorem operands_around {α : Type} (p : Precedence) (tree : α → Tree) (before after : List α)
    (t : Tree) :
    operands p (before.map tree ++ t :: after.map tree) =
      separated ((before.map fun x => [operand p (tree x)]) ++
        [operand p t] :: after.map fun x => [operand p (tree x)]) := by
  simp [operands, Function.comp_def]

/-- One entry among others. -/
theorem entries_around {α : Type} (tree : α → Tree) (before after : List (String × α))
    (key : String) (t : Tree) :
    entries ((before.map fun e => (e.1, tree e.2)) ++ (key, t) :: after.map fun e =>
        (e.1, tree e.2)) =
      separated ((before.map fun e => [token, token, operand .or (tree e.2)]) ++
        [token, token, operand .or t] ::
          after.map fun e => [token, token, operand .or (tree e.2)]) := by
  simp [entries, Function.comp_def]

/-- Lists of parts behind a first one. -/
theorem separated_cons (ps : List Part) {pss : List (List Part)} (h : pss ≠ []) :
    separated (ps :: pss) = ps ++ token :: separated pss := by
  rw [separated, intercalate_cons, ← append_intercalate [token] h]
  rfl

/-- The operands that some lists hold, list by list. -/
theorem operands_flatMap {α : Type} (p : Precedence) {f : α → List Tree} {xs : List α}
    (h : ∀ x ∈ xs, f x ≠ []) :
    operands p (xs.flatMap f) = separated (xs.map fun x => operands p (f x)) := by
  induction xs with
  | nil => rfl
  | cons x xs ih =>
      obtain ⟨hx, hxs⟩ := List.forall_mem_cons.mp h
      obtain ⟨t, ts, hts⟩ := List.exists_cons_of_ne_nil hx
      cases xs with
      | nil => simp [separated]
      | cons y ys =>
          have hne : (y :: ys).flatMap f ≠ [] := by
            rw [List.flatMap_cons]
            exact fun hnil => hxs y (List.mem_cons_self ..) (List.append_eq_nil_iff.mp hnil).1
          have hrest := ih hxs
          rw [List.map_cons, separated] at hrest
          rw [List.flatMap_cons, List.map_cons, List.map_cons, separated,
            List.intercalate_cons_cons, ← hrest, hts, List.cons_append, operands_cons,
            operands_cons, List.flatMap_append, ← token_operands p hne]
          simp

end Part

namespace Tree

/-- The level of the outermost operator of a tree. -/
def precedence : Tree → Precedence
  | .compare .. | .isNull .. => .comparison
  | .arith op _ _ => op.precedence
  | .group op _ => op.precedence
  | .not _ => .not
  | _ => .atom

/-- The parts of a tree. -/
def parts (g : Grammar) : Tree → List Part
  | .var _ | .literal _ => [.token]
  | .property _ _ => [.token, .token, .token]
  | .param _ => [.token, .token]
  | .list items => .token :: (Part.operands .or items ++ [.token])
  | .map entries => .token :: (Part.entries entries ++ [.token])
  | .compare op left right =>
      .operand (g.below .comparison) left ::
        (Part.ofTokens op.tokens ++ [.operand (g.below .comparison) right])
  | .isNull operand negated =>
      .operand (g.below .comparison) operand :: Part.ofTokens (Token.isNullWords negated)
  | .arith op left right =>
      [.operand op.precedence left, .token, .operand (g.below op.precedence) right]
  | .group op operands => Part.operands (g.below op.precedence) operands
  | .not operand => [.token, .operand .not operand]
  | .call name distinct args =>
      Part.ofTokens (Token.function name) ++
        .bracket .parenOpen :: ((if distinct then [.token] else []) ++ Part.operands .or args ++
          [.bracket .parenClose])

end Tree

/-! ## What is written

Between the parts there is nothing, and around an operand there may be any number of pairs of
brackets. All that can be written for some parts has one weight, as brackets come in pairs. -/

/-- Tokens are written for parts. An operand stands in some pairs of round brackets, in one at least
if it binds more loosely than its level. -/
inductive Fills (g : Grammar) : List Part → List Token → Prop
  | nil : Fills g [] []
  | token {t : Token} {parts : List Part} {ts : List Token} (ht : t.isParen = false)
      (h : Fills g parts ts) : Fills g (.token :: parts) (t :: ts)
  | bracket (m : Mark) {parts : List Part} {ts : List Token} (h : Fills g parts ts) :
      Fills g (.bracket m :: parts) (.mark m :: ts)
  | operand {p : Precedence} {t : Tree} {inner : List Token} (k : Nat) {parts : List Part}
      {ts : List Token} (hfit : k = 0 → g.rank p ≤ g.rank t.precedence)
      (hinner : Fills g (t.parts g) inner) (h : Fills g parts ts) :
      Fills g (.operand p t :: parts) (Token.nested k inner ++ ts)

/-- Tokens are written for a tree at a level. -/
def Writes (g : Grammar) (p : Precedence) (t : Tree) (ts : List Token) : Prop :=
  ∃ k inner, ts = Token.nested k inner ∧ (k = 0 → g.rank p ≤ g.rank t.precedence) ∧
    Fills g (t.parts g) inner

variable {g : Grammar} {p q : Precedence} {t : Tree} {ps qs : List Part} {ts us : List Token}

namespace Writes

/-- A tree that binds as tightly as its level needs no brackets. -/
theorem bare (hfit : g.rank p ≤ g.rank t.precedence) (h : Fills g (t.parts g) ts) :
    Writes g p t ts :=
  ⟨0, ts, (Token.nested_zero ts).symm, fun _ => hfit, h⟩

/-- In brackets a tree can stand at every level. -/
theorem parens (h : Writes g q t ts) (p : Precedence) : Writes g p t (Token.parens ts) := by
  obtain ⟨k, inner, rfl, -, hinner⟩ := h
  exact ⟨k + 1, inner, Token.parens_nested k inner, fun hk => absurd hk k.succ_ne_zero, hinner⟩

theorem mono (h : Writes g q t ts) (hpq : g.rank p ≤ g.rank q) : Writes g p t ts := by
  obtain ⟨k, inner, rfl, hfit, hinner⟩ := h
  exact ⟨k, inner, rfl, fun hk => Nat.le_trans hpq (hfit hk), hinner⟩

end Writes

namespace Fills

theorem of_writes_append (h : Writes g p t ts) (h' : Fills g ps us) :
    Fills g (.operand p t :: ps) (ts ++ us) := by
  obtain ⟨k, inner, rfl, hfit, hinner⟩ := h
  exact operand k hfit hinner h'

theorem append (h : Fills g ps ts) (h' : Fills g qs us) : Fills g (ps ++ qs) (ts ++ us) := by
  induction h with
  | nil => exact h'
  | token ht _ ih => exact token ht ih
  | bracket m _ ih => exact bracket m ih
  | operand k hfit hinner _ _ ih =>
      rw [List.append_assoc]
      exact operand k hfit hinner ih

theorem additive (g : Grammar) : Token.Additive fun ts ps => Fills g ps ts := ⟨.nil, append⟩

/-- What is written for parts can be taken apart as they can. -/
theorem exists_append (h : Fills g (ps ++ qs) ts) :
    ∃ as bs, ts = as ++ bs ∧ Fills g ps as ∧ Fills g qs bs := by
  induction ps generalizing ts with
  | nil => exact ⟨[], ts, rfl, nil, h⟩
  | cons part ps ih =>
      cases h with
      | token ht h =>
          obtain ⟨as, bs, rfl, has, hbs⟩ := ih h
          exact ⟨_ :: as, bs, rfl, token ht has, hbs⟩
      | bracket m h =>
          obtain ⟨as, bs, rfl, has, hbs⟩ := ih h
          exact ⟨_ :: as, bs, rfl, bracket m has, hbs⟩
      | operand k hfit hinner h =>
          obtain ⟨as, bs, rfl, has, hbs⟩ := ih h
          exact ⟨_ ++ as, bs, (List.append_assoc ..).symm, operand k hfit hinner has, hbs⟩

end Fills

theorem fills_operand_iff : Fills g [.operand p t] ts ↔ Writes g p t ts := by
  constructor
  · rintro (_ | _ | _ | ⟨k, hfit, hinner, _ | _⟩)
    exact ⟨k, _, List.append_nil _, hfit, hinner⟩
  · intro h
    have := Fills.of_writes_append h .nil
    rwa [List.append_nil] at this

namespace Fills

theorem ofTokens (h : ∀ t ∈ ts, t.isParen = false) : Fills g (Part.ofTokens ts) ts := by
  induction ts with
  | nil => exact nil
  | cons t ts ih =>
      obtain ⟨ht, hts⟩ := List.forall_mem_cons.mp h
      exact token ht (ih hts)

theorem optional {o : Token} (ho : o.isParen = false) (given : Bool) :
    Fills g (if given then [.token] else []) (if given then [o] else []) := by
  cases given with
  | true => exact token ho nil
  | false => exact nil

/-- What is written for parts other than operands has as many tokens as there are parts. -/
theorem length_eq (hps : ∀ p t, .operand p t ∉ ps) (h : Fills g ps ts) : ts.length = ps.length := by
  induction h with
  | nil => rfl
  | token _ _ ih | bracket _ _ ih =>
      exact congrArg Nat.succ (ih fun p t ht => hps p t (List.mem_cons_of_mem _ ht))
  | operand => exact absurd (List.mem_cons_self ..) (hps _ _)

/-- **All that can be written for some parts has the same weight.** -/
theorem weightOf_eq (h : Fills g ps ts) (h' : Fills g ps us) :
    Token.weightOf ts = Token.weightOf us := by
  induction h generalizing us with
  | nil => cases h'; rfl
  | token ht _ ih =>
      cases h' with
      | token ht' h' =>
          rw [Token.weightOf_cons, Token.weightOf_cons, Token.weight_of_not_isParen ht,
            Token.weight_of_not_isParen ht', ih h']
  | bracket m _ ih =>
      cases h' with
      | bracket _ h' => rw [Token.weightOf_cons, Token.weightOf_cons, ih h']
  | operand k _ _ _ ihinner ih =>
      cases h' with
      | operand k' _ hinner' h' =>
          rw [Token.weightOf_append, Token.weightOf_append, Token.weightOf_nested,
            Token.weightOf_nested, ihinner hinner', ih h']

/-! ## Taking apart

The parts before a token determine how many tokens stand before it that are no brackets. So the
token is found, and what stands before it is written for the parts before it. -/

section Apart

variable {front back : List Part} {hs hs₀ bs : List Token} {o : Token} {k : Nat}

/-- **What is written for a tree can be taken apart** at a token that is in none of its operands,
given how much stands before it. So many pairs of brackets as are around the tree are then known to
be no part of its operands. -/
theorem of_writes (hparts : t.parts g = front ++ .token :: back) (hfront : Fills g front hs₀)
    (hweight : Token.weightOf hs = Token.weightOf hs₀) (ho : o.isParen = false)
    (h : Writes g p t (Token.nested k (hs ++ o :: bs))) :
    Fills g front hs ∧ Fills g back bs ∧ (k = 0 → g.rank p ≤ g.rank t.precedence) := by
  obtain ⟨m, inner, htokens, hfit, hinner⟩ := h
  rw [hparts] at hinner
  obtain ⟨as, cs, rfl, has, hcs⟩ := hinner.exists_append
  cases hcs with
  | token hu hcs =>
      have hweight' := hweight.trans (hfront.weightOf_eq has)
      simp only [Token.nested, List.append_assoc, List.cons_append] at htokens
      rw [← List.append_assoc, ← List.append_assoc] at htokens
      obtain ⟨hbefore, -, hbehind⟩ := Token.eq_of_append_eq ho hu htokens (by
        rw [Token.weightOf_append, Token.weightOf_append, (Token.weightOf_replicate k).1,
          (Token.weightOf_replicate m).1, hweight']
        rfl)
      -- the brackets around the tree are the steps in before the token
      have hdepth := congrArg Token.weightOf hbefore
      rw [Token.weightOf_append, Token.weightOf_append, (Token.weightOf_replicate k).1,
        (Token.weightOf_replicate m).1, hweight'] at hdepth
      obtain rfl : k = m := Int.ofNat_inj.mp (congrArg Prod.snd (add_right_cancel hdepth))
      rw [List.append_cancel_left hbefore, List.append_cancel_right hbehind]
      exact ⟨has, hcs, hfit⟩

end Apart

end Fills

/-! ## Parts in the middle

Where operands stand on both sides the middle is found from both ends. On the left the parts have
to end at one place, and on the right a token has to follow, or there are no operands. -/

/-- What is written for some parts ends at one place, whatever stands behind it. -/
def Firm (g : Grammar) (ps : List Part) : Prop :=
  ∀ ts us xs ys : List Token, Fills g ps ts → Fills g ps us → ts ++ xs = us ++ ys → ts = us

namespace Firm

theorem of_no_operand (h : ∀ p t, .operand p t ∉ ps) : Firm g ps := by
  intro ts us xs ys hts hus heq
  exact (List.append_inj heq ((hts.length_eq h).trans (hus.length_eq h).symm)).1

/-- Parts with a token at the end are written up to that token. -/
theorem concat_token (ps : List Part) : Firm g (ps ++ [.token]) := by
  intro ts us xs ys hts hus heq
  obtain ⟨as, cs, rfl, has, hcs⟩ := hts.exists_append
  obtain ⟨bs, ds, rfl, hbs, hds⟩ := hus.exists_append
  cases hcs with
  | token ht hnil =>
      cases hnil
      cases hds with
      | token hu hnil =>
          cases hnil
          rw [List.append_assoc, List.append_assoc] at heq
          obtain ⟨rfl, rfl, -⟩ := Token.eq_of_append_eq ht hu heq
            (congrArg Prod.fst (has.weightOf_eq hbs))
          rfl

theorem append (hps : Firm g ps) (hqs : Firm g qs) : Firm g (ps ++ qs) := by
  intro ts us xs ys hts hus heq
  obtain ⟨as, cs, rfl, has, hcs⟩ := hts.exists_append
  obtain ⟨bs, ds, rfl, hbs, hds⟩ := hus.exists_append
  rw [List.append_assoc, List.append_assoc] at heq
  obtain rfl := hps as bs _ _ has hbs heq
  rw [hqs cs ds xs ys hcs hds (List.append_cancel_left heq)]

theorem flatMap {α : Type} (f : α → List Part) (xs : List α) :
    Firm g (xs.flatMap fun x => f x ++ [.token]) := by
  induction xs with
  | nil => exact of_no_operand fun _ _ => List.not_mem_nil
  | cons x xs ih => exact (concat_token (f x)).append ih

end Firm

/-- Parts before which an operand ends: they begin with a token, or there is no operand in them. -/
def Part.Closing (ps : List Part) : Prop :=
  (∀ p t, .operand p t ∉ ps) ∨ ∃ qs, ps = .token :: qs

theorem Part.closing_flatMap {α : Type} (f : α → List Part) (xs : List α) (h : Closing ps) :
    Closing ((xs.flatMap fun x => .token :: f x) ++ ps) := by
  cases xs with
  | nil => exact h
  | cons x xs => exact Or.inr ⟨_, rfl⟩

/-- What stands behind parts that end at one place. -/
theorem Fills.of_append (hps : Firm g ps) (hts : Fills g ps ts)
    (h : Fills g (ps ++ qs) (ts ++ us)) : Fills g qs us := by
  obtain ⟨as, bs, htokens, has, hbs⟩ := h.exists_append
  obtain rfl := hps _ _ _ _ hts has htokens
  rwa [List.append_cancel_left htokens]

/-- **Parts in the middle are found** between parts that end at one place and parts before which
they end. -/
theorem Fills.middle {front middle back : List Part} {hs hs₀ rs bs : List Token}
    (hfront : Firm g front) (hback : Part.Closing back) (hrs : Fills g front rs)
    (hbs : Fills g back bs) (hmiddle : Fills g middle hs₀)
    (hweight : Token.weightOf hs = Token.weightOf hs₀)
    (h : Fills g (front ++ (middle ++ back)) (rs ++ (hs ++ bs))) : Fills g middle hs := by
  obtain ⟨hs', bs', htokens, hhs', hbs'⟩ := (of_append hfront hrs h).exists_append
  have hweight' := hweight.trans (hmiddle.weightOf_eq hhs')
  rcases hback with hback | ⟨back', rfl⟩
  · have hlength := (hbs.length_eq hback).trans (hbs'.length_eq hback).symm
    rw [(List.append_inj' htokens hlength).1]
    exact hhs'
  · cases hbs with
    | token ho hbs =>
        cases hbs' with
        | token ho' hbs' =>
            rw [(Token.eq_of_append_eq ho ho' htokens (congrArg Prod.fst hweight')).1]
            exact hhs'

/-- One of some parts with a token between two of them. -/
theorem Fills.middle_separated {α : Type} {f : α → List Token} {parts : α → List Part} {o : Token}
    {front middle back : List Part} {rs hs hs₀ bs : List Token} {before after : List α}
    (ho : o.isParen = false) (hfront : Firm g front) (hback : Part.Closing back)
    (hrs : Fills g front rs) (hbs : Fills g back bs)
    (hsiblings : ∀ x ∈ before ++ after, Fills g (parts x) (f x)) (hmiddle : Fills g middle hs₀)
    (hweight : Token.weightOf hs = Token.weightOf hs₀)
    (h : Fills g (front ++ (Part.separated (before.map parts ++ middle :: after.map parts) ++ back))
      (rs ++ ([o].intercalate (before.map f ++ hs :: after.map f) ++ bs))) :
    Fills g middle hs := by
  obtain ⟨hbefore, hafter⟩ := List.forall_mem_append.mp hsiblings
  -- each sibling behind the middle begins with the separator
  have hbehind : Fills g (after.flatMap fun x => .token :: parts x)
      (after.flatMap fun x => o :: f x) :=
    (additive g).flatMap fun x hx => .token ho (hafter x hx)
  -- and each one before it ends with the separator, so it ends at one place
  have hbeforehand : Fills g (before.flatMap fun x => parts x ++ [.token])
      (before.flatMap fun x => f x ++ [o]) :=
    (additive g).flatMap fun x hx => (hbefore x hx).append (.token ho .nil)
  refine Fills.middle (hfront.append (.flatMap parts before))
    (Part.closing_flatMap parts after hback) (hrs.append hbeforehand) (hbehind.append hbs)
    hmiddle hweight ?_
  rw [Part.separated, intercalate_append_cons, intercalate_append_cons, List.flatMap_map,
    List.flatMap_map, List.flatMap_map, List.flatMap_map] at h
  simpa [List.append_assoc] using h

end GraphQuery
