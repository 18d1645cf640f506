import GraphQuery.Proofs.Token.Layout

set_option autoImplicit false

/-! # Clause words

A bare word that begins a clause is a name token like any other, and where it stands decides what it
is: between brackets or behind a full stop it is a key, a label or a part of a name, and behind
`STARTS` and `ENDS` a `WITH` belongs to the operator. `Token.clauseWords` reads off a list of tokens
the words that are left. Laid out tokens show the words of their parts (`Token.Exposes`), and
brackets hide those of what stands between them (`Token.Hides`).
-/

namespace GraphQuery

/-! ## Reading clause words

A reader needs to know two things about what stands before a word: how many brackets are open,
and whether the token before it makes the word part of something else. It gets along without any
grammar. -/

namespace Name

/-- The words of the keywords of clauses, in small letters, without the second word of
`ORDER BY`. -/
def clauseVocabulary : List String :=
  [ "match", "optional", "unwind", "create", "merge", "set", "delete", "detach", "with", "return",
    "where", "order", "skip", "limit" ]

/-- Whether a word is one of these in some letter case. -/
def isClauseWord (raw : String) : Bool := clauseVocabulary.contains (smallLetters raw)

/-- Whether a word is the first one of an operator that ends with `WITH`. -/
def isAffix (raw : String) : Bool := ["starts", "ends"].contains (smallLetters raw)

theorem isReserved_of_isClauseWord {raw : String} (h : isClauseWord raw = true) :
    isReserved raw = true := by
  have hall : ∀ word ∈ clauseVocabulary, word ∈ reservedWords := by decide
  exact List.contains_iff_mem.mpr (hall _ (List.contains_iff_mem.mp h))

theorem isReserved_of_isAffix {raw : String} (h : isAffix raw = true) : isReserved raw = true := by
  have hall : ∀ word ∈ ["starts", "ends"], word ∈ reservedWords := by decide
  exact List.contains_iff_mem.mpr (hall _ (List.contains_iff_mem.mp h))

end Name

/-- What stands right before a token, as far as it matters. -/
inductive Lead where
  | free
  | stop
  | affix
deriving DecidableEq

namespace Lead

/-- What stands right before the token behind a token. -/
def behind (l : Lead) : Token → Lead
  | .mark .dot | .mark .dots => .stop
  | .name raw false => if l ≠ .stop ∧ Name.isAffix raw then .affix else .free
  | _ => .free

/-- The clause word that a token is. -/
def word? (l : Lead) : Token → Option String
  | .name raw false =>
      if Name.isClauseWord raw ∧ l ≠ .stop ∧ (l = .affix → Name.smallLetters raw ≠ "with") then
        some (Name.smallLetters raw)
      else none
  | _ => none

end Lead

def Mark.opens : Mark → Bool
  | .parenOpen | .bracketOpen | .braceOpen => true
  | _ => false

def Mark.closes : Mark → Bool
  | .parenClose | .bracketClose | .braceClose => true
  | _ => false

namespace Token

def isBracket : Token → Bool
  | .mark m => m.opens || m.closes
  | _ => false

/-- The number of brackets around the token behind a token. -/
def depthBehind (depth : Nat) : Token → Nat
  | .mark m => if m.opens then depth + 1 else if m.closes then depth - 1 else depth
  | _ => depth

theorem depthBehind_of_not_isBracket {t : Token} (h : t.isBracket = false) (depth : Nat) :
    t.depthBehind depth = depth := by
  cases t with
  | mark m =>
      simp only [isBracket, Bool.or_eq_false_iff] at h
      simp [depthBehind, h]
  | _ => rfl

/-- The clause words outside all brackets, in small letters, if some brackets are open before the
tokens and given what stands before them. -/
def clauseWords (depth : Nat) (l : Lead) : List Token → List String
  | [] => []
  | t :: ts =>
      (if depth = 0 then (l.word? t).toList else []) ++
        clauseWords (t.depthBehind depth) (l.behind t) ts

/-! ## Between brackets

Between brackets no word counts, whatever stands before it. Tokens whose own brackets are closed
again leave the depth as it was, so they can be left out. -/

variable {ts us : List Token} {ws vs : List String}

/-- Between brackets it does not matter what stands before, since what stands behind them follows a
bracket. -/
theorem clauseWords_inside (depth : Nat) (l l' : Lead) (ts : List Token) :
    clauseWords (depth + 1) l ts = clauseWords (depth + 1) l' ts := by
  induction ts generalizing l l' with
  | nil => rfl
  | cons t ts ih =>
      cases t with
      | name raw quoted => exact ih _ _
      | mark m => cases m <;> rfl
      | _ => rfl

/-- Tokens between brackets that show no clause word and leave the brackets open. -/
def Hides (ts : List Token) : Prop :=
  ∀ depth l us, clauseWords (depth + 1) l (ts ++ us) = clauseWords (depth + 1) .free us

namespace Hides

theorem nil : Hides [] := fun depth l us => clauseWords_inside depth l .free us

theorem append (h : Hides ts) (h' : Hides us) : Hides (ts ++ us) := by
  intro depth l vs
  rw [List.append_assoc, h, h']

theorem cons {t : Token} (ht : t.isBracket = false) (h : Hides ts) : Hides (t :: ts) := by
  intro depth l us
  rw [List.cons_append, clauseWords, depthBehind_of_not_isBracket ht, h]
  rfl

/-- Tokens without brackets. -/
theorem plain (h : ∀ t ∈ ts, t.isBracket = false) : Hides ts := by
  induction ts with
  | nil => exact nil
  | cons t ts ih =>
      obtain ⟨ht, hts⟩ := List.forall_mem_cons.mp h
      exact (ih hts).cons ht

theorem additive : Additive fun ts (_ : List String) => Hides ts := ⟨nil, append⟩

theorem commas {α : Type} {f : α → List Token} {xs : List α} (h : ∀ x ∈ xs, Hides (f x)) :
    Hides (Token.commas (xs.map f)) :=
  additive.intercalate_nil (nil.cons rfl) h

theorem entry (key : String) (h : Hides ts) : Hides (Token.entry key ts) := (h.cons rfl).cons rfl

end Hides

/-! ## Outside of brackets

Tokens that show some words show them wherever they stand outside of brackets, and behind them a
word counts again. Both halves are kept together, because a text that is shown in one place may
be hidden in another. -/

/-- Tokens that show some clause words where no bracket is open, and none between brackets. Brackets
are closed again in them. -/
structure Exposes (ts : List Token) (ws : List String) : Prop where
  hides : Hides ts
  exposes : ∀ us, clauseWords 0 .free (ts ++ us) = ws ++ clauseWords 0 .free us

/-- A token that is no clause word and no bracket, and that leaves what stands behind it free. -/
structure Neutral (t : Token) : Prop where
  isBracket : t.isBracket = false
  word? : Lead.free.word? t = none
  behind : Lead.free.behind t = .free

namespace Exposes

theorem nil : Exposes [] [] := ⟨Hides.nil, fun _ => rfl⟩

theorem append (h : Exposes ts ws) (h' : Exposes us vs) : Exposes (ts ++ us) (ws ++ vs) where
  hides := h.hides.append h'.hides
  exposes xs := by rw [List.append_assoc, h.exposes, h'.exposes, List.append_assoc]

theorem additive : Additive Exposes := ⟨nil, append⟩

theorem cons {t : Token} (ht : Neutral t) (h : Exposes ts ws) : Exposes (t :: ts) ws where
  hides := h.hides.cons ht.isBracket
  exposes us := by
    rw [List.cons_append, clauseWords, depthBehind_of_not_isBracket ht.isBracket, ht.word?,
      ht.behind, h.exposes]
    rfl

/-- Brackets show nothing of what stands between them. -/
theorem enclosed {o c : Mark} (ho : o.opens = true) (hc : c.closes = true) (h : Hides ts) :
    Exposes (.mark o :: (ts ++ [.mark c])) [] where
  hides depth l us := by
    have hopen : depthBehind (depth + 1) (.mark o) = depth + 1 + 1 := by simp [depthBehind, ho]
    have hclose : depthBehind (depth + 1 + 1) (.mark c) = depth + 1 := by
      cases c <;> first | rfl | exact absurd hc Bool.false_ne_true
    rw [List.cons_append, clauseWords, hopen, List.append_assoc, h, List.singleton_append,
      clauseWords, hclose]
    exact clauseWords_inside ..
  exposes us := by
    have hopen : depthBehind 0 (.mark o) = 0 + 1 := by simp [depthBehind, ho]
    rw [List.cons_append, clauseWords, hopen, List.append_assoc, h, List.singleton_append,
      clauseWords]
    cases c <;> first | rfl | exact absurd hc Bool.false_ne_true

theorem parens (h : Hides ts) : Exposes (Token.parens ts) [] := enclosed rfl rfl h

theorem brackets (h : Hides ts) : Exposes (Token.brackets ts) [] := enclosed rfl rfl h

theorem braces (h : Hides ts) : Exposes (Token.braces ts) [] := enclosed rfl rfl h

theorem binary {op : List Token} (hl : Exposes ts ws) (hop : Exposes op []) (hr : Exposes us vs) :
    Exposes (Token.binary ts op us) (ws ++ vs) :=
  hl.append (hop.append hr)

end Exposes

/-! ### Single tokens

Names of variables and parameters are between backquotes if they are reserved, and clause words
are reserved. Labels, types and the keys of maps stand between brackets, and the key of a
property behind a full stop. -/

theorem neutral_mark {m : Mark} (h : m.opens = false ∧ m.closes = false ∧ m ≠ .dot ∧ m ≠ .dots) :
    Neutral (.mark m) := by
  obtain ⟨hopens, hcloses, hdot, hdots⟩ := h
  refine ⟨by simp [isBracket, hopens, hcloses], rfl, ?_⟩
  cases m <;> first | rfl | exact absurd rfl hdot | exact absurd rfl hdots

theorem neutral_name {raw : String} (hword : Name.isClauseWord raw = false)
    (haffix : Name.isAffix raw = false) (quoted : Bool) : Neutral (.name raw quoted) := by
  cases quoted with
  | false => exact ⟨rfl, by simp [Lead.word?, hword], by simp [Lead.behind, haffix]⟩
  | true => exact ⟨rfl, rfl, rfl⟩

/-- The name of a variable or a parameter is quoted if it is a clause word. -/
theorem neutral_ofBinding (raw : String) : Neutral (.ofBinding raw) := by
  by_cases hreserved : Name.isReserved raw = true
  · have hquoted : Name.quotesBinding raw = true := by simp [Name.quotesBinding, hreserved]
    rw [ofBinding, hquoted]
    exact ⟨rfl, rfl, rfl⟩
  · refine neutral_name ?_ ?_ _
    · exact Bool.eq_false_iff.mpr (mt Name.isReserved_of_isClauseWord hreserved)
    · exact Bool.eq_false_iff.mpr (mt Name.isReserved_of_isAffix hreserved)

namespace Exposes

theorem binding (raw : String) : Exposes [.ofBinding raw] [] := nil.cons (neutral_ofBinding raw)

theorem comma : Exposes [.mark .comma] [] := nil.cons (neutral_mark (by decide))

theorem commas {α : Type} {f : α → List Token} {g : α → List String} {xs : List α}
    (h : ∀ x ∈ xs, Exposes (f x) (g x)) : Exposes (Token.commas (xs.map f)) (xs.flatMap g) :=
  additive.intercalate comma h

theorem commas_nil {α : Type} {f : α → List Token} {xs : List α}
    (h : ∀ x ∈ xs, Exposes (f x) []) : Exposes (Token.commas (xs.map f)) [] :=
  additive.intercalate_nil comma h

/-- Keywords show those of them that are clause words. -/
theorem keywords {ws : List String} (h : ∀ w ∈ ws, Name.isAffix w = false) :
    Exposes (Token.words ws) ((ws.filter Name.isClauseWord).map Name.smallLetters) := by
  induction ws with
  | nil => exact nil
  | cons w ws ih =>
      obtain ⟨hw, hws⟩ := List.forall_mem_cons.mp h
      have hrest := ih hws
      cases hword : Name.isClauseWord w with
      | false =>
          rw [List.filter_cons_of_neg (by simp [hword])]
          exact hrest.cons (neutral_name hword hw false)
      | true =>
          rw [List.filter_cons_of_pos hword]
          refine ⟨hrest.hides.cons rfl, fun us => ?_⟩
          have hfree : Lead.free.behind (keyword w) = .free := by
            simp [Lead.behind, keyword, hw]
          have hshown : Lead.free.word? (keyword w) = some (Name.smallLetters w) := by
            simp [Lead.word?, keyword, hword]
          rw [Token.words, List.map_cons, List.cons_append, clauseWords, hfree, hshown]
          exact congrArg (Name.smallLetters w :: ·) (hrest.exposes us)

/-- Keywords that are no clause words. -/
theorem words (ws : List String)
    (h : ∀ w ∈ ws, Name.isClauseWord w = false ∧ Name.isAffix w = false) :
    Exposes (Token.words ws) [] := by
  have hall := keywords fun w hw => (h w hw).2
  rwa [List.filter_eq_nil_iff.mpr fun w hw => by simp [(h w hw).1]] at hall

/-- A keyword that stands there or not. -/
theorem optional (word : String) (h : Name.isClauseWord word = false ∧ Name.isAffix word = false)
    (given : Bool) : Exposes (if given then [.keyword word] else []) [] := by
  cases given with
  | false => exact nil
  | true => exact words [word] (by simpa using h)

/-- A `WITH` behind a word that it belongs to is no clause word. -/
theorem affixed {word : String} (h : Name.isClauseWord word = false ∧ Name.isAffix word = true) :
    Exposes (Token.words [word, "WITH"]) [] where
  hides := Hides.plain (by simp [Token.words, keyword, isBracket])
  exposes us := by
    have hwith : Name.smallLetters "WITH" = "with" := by decide
    have hplain : Name.isAffix "WITH" = false := by decide
    simp [Token.words, keyword, clauseWords, Lead.word?, Lead.behind, depthBehind, h.1, h.2, hwith,
      hplain]

/-- A key behind a full stop is no clause word. -/
theorem member {ts : List Token} {ws : List String} (h : Exposes ts ws) (key : String) :
    Exposes (ts ++ [.mark .dot, .ofName key]) ws := by
  have hkey : Exposes [.mark .dot, .ofName key] [] := by
    refine ⟨Hides.plain (by simp [isBracket, ofName, Mark.opens, Mark.closes]), fun us => ?_⟩
    have hstop : Lead.free.behind (.mark .dot) = .stop := rfl
    rw [List.cons_append, List.singleton_append, clauseWords, clauseWords, hstop, ofName]
    cases Name.isPlain key <;> simp [depthBehind, Lead.word?, Lead.behind, Mark.opens, Mark.closes]
  have hwhole := h.append hkey
  rwa [List.append_nil] at hwhole

end Exposes

end Token

/-! ### Calls of functions

The name of a function is written bare, whatever it is. Its first part is a word like any other,
and the parts behind a full stop are not. -/

namespace Name

/-- The part of a dotted name before its first full stop. -/
def leadingPart (name : String) : String := String.ofList ((dotParts name.toList).headD [])

/-- The clause words that the name of a function shows. -/
def clauseWords (name : String) : List String :=
  if isClauseWord (leadingPart name) then [smallLetters (leadingPart name)] else []

end Name

namespace Token

/-- The tokens of a name with full stops show what its first part shows, if a bracket follows. -/
theorem clauseWords_parts (l : Lead) (part : List Char) (parts : List (List Char))
    (us : List Token) :
    clauseWords 0 l ([.mark .dot].intercalate
        ((part :: parts).map fun p => [keyword (String.ofList p)]) ++ .mark .parenOpen :: us) =
      (l.word? (keyword (String.ofList part))).toList ++
        clauseWords 0 .free (.mark .parenOpen :: us) := by
  induction parts generalizing l part with
  | nil => rfl
  | cons next parts ih =>
      have hnext := ih .stop next
      rw [List.map_cons] at hnext
      rw [List.map_cons, List.map_cons, List.intercalate_cons_cons, List.append_assoc,
        List.append_assoc, List.singleton_append, List.singleton_append, clauseWords, clauseWords]
      -- behind the full stop the next part is none
      have hstop : Lead.stop.word? (keyword (String.ofList next)) = none := by
        simp [Lead.word?, keyword]
      show _ ++ ([] ++ clauseWords 0 .stop _) = _
      rw [hnext, hstop]
      rfl

/-- A call shows the clause word that the name of its function begins with, if there is one. -/
theorem Exposes.call (name : String) {ts : List Token} (h : Hides ts) :
    Exposes (Token.function name ++ Token.parens ts) (Name.clauseWords name) := by
  have hparens := Exposes.parens h
  refine ⟨?_, fun us => ?_⟩
  · have hdot : Hides [.mark .dot] := Hides.nil.cons rfl
    have hfunction : Hides (Token.function name) :=
      Hides.additive.intercalate_nil hdot fun part _ => Hides.nil.cons rfl
    exact hfunction.append hparens.hides
  · obtain ⟨part, parts, hparts⟩ := List.exists_cons_of_ne_nil (Name.dotParts_ne_nil name.toList)
    have hwords : (Lead.free.word? (keyword (String.ofList part))).toList =
        Name.clauseWords name := by
      have hlead : Name.leadingPart name = String.ofList part := by
        rw [Name.leadingPart, hparts, List.headD_cons]
      rw [Name.clauseWords, hlead]
      by_cases hword : Name.isClauseWord (String.ofList part) = true <;>
        simp [Lead.word?, keyword, hword]
    rw [Token.function, hparts, List.append_assoc, ← hwords, ← List.nil_append (clauseWords 0 _ us),
      ← hparens.exposes]
    exact clauseWords_parts .free part parts _

end Token

end GraphQuery
