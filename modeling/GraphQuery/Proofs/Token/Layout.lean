import GraphQuery.Proofs.Print.Layout
import GraphQuery.Proofs.Token.Scanning

set_option autoImplicit false

/-! # Scanning laid out texts

Brackets, lists and operators on tokens, in step with those on texts. `ScansAs cs ts` says that a
text is some tokens wherever nothing stands behind it that could be taken for more of it; laid out
texts are the laid out tokens of their parts.
-/

namespace GraphQuery

/-- The characters `cs` are the tokens `ts` wherever a clear text follows. -/
def ScansAs (cs : List Char) (ts : List Token) : Prop :=
  ∀ rest, Clear rest → Scans cs ts rest

/-! ## Layout of tokens

The layouts of texts once more, with blanks left out and marks in the place of characters. A
comma is one token, and words stand next to each other. -/

namespace Token

/-- Tokens with a comma between two of them. -/
def commas (tss : List (List Token)) : List Token := [.mark .comma].intercalate tss

/-- Keywords one after the other. -/
def words (ws : List String) : List Token := ws.map keyword

/-- Tokens in round brackets. -/
def parens (ts : List Token) : List Token := .mark .parenOpen :: (ts ++ [.mark .parenClose])

/-- Tokens in round brackets where they are needed. -/
def parensIf (needed : Bool) (ts : List Token) : List Token := if needed then parens ts else ts

/-- Tokens in square brackets. -/
def brackets (ts : List Token) : List Token := .mark .bracketOpen :: (ts ++ [.mark .bracketClose])

/-- Tokens in braces. -/
def braces (ts : List Token) : List Token := .mark .braceOpen :: (ts ++ [.mark .braceClose])

/-- Two operands with an operator between them. -/
def binary (left op right : List Token) : List Token := left ++ (op ++ right)

/-- The entry of a map or a property list. -/
def entry (key : String) (value : List Token) : List Token := ofName key :: .mark .colon :: value

/-- The name of a function: its parts with a full stop between two of them. -/
def function (name : String) : List Token :=
  [.mark .dot].intercalate
    ((Name.dotParts name.toList).map fun part => [keyword (String.ofList part)])

/-! ### What laid out tokens give

Some things can be read off a list of tokens part by part. -/

/-- A relation of tokens to what is read off them, of which the empty list gives nothing and tokens
one behind the other give what each of them gives. -/
structure Additive {β : Type} (R : List Token → List β → Prop) : Prop where
  nil : R [] []
  append : ∀ {ts us : List Token} {xs ys : List β}, R ts xs → R us ys → R (ts ++ us) (xs ++ ys)

namespace Additive

variable {α β : Type} {R : List Token → List β → Prop} {f : α → List Token} {g : α → List β}
  {xs : List α} {sep : List Token}

theorem flatMap (hR : Additive R) (h : ∀ x ∈ xs, R (f x) (g x)) :
    R (xs.flatMap f) (xs.flatMap g) := by
  induction xs with
  | nil => exact hR.nil
  | cons x xs ih =>
      obtain ⟨hx, hxs⟩ := List.forall_mem_cons.mp h
      exact hR.append hx (ih hxs)

/-- A separator that gives nothing leaves what the tokens between which it stands give. -/
theorem intercalate (hR : Additive R) (hsep : R sep []) (h : ∀ x ∈ xs, R (f x) (g x)) :
    R (sep.intercalate (xs.map f)) (xs.flatMap g) := by
  induction xs with
  | nil => exact hR.nil
  | cons x xs ih =>
      obtain ⟨hx, hxs⟩ := List.forall_mem_cons.mp h
      cases xs with
      | nil =>
          rw [List.map_singleton, List.intercalate_singleton, List.flatMap_singleton]
          exact hx
      | cons y ys =>
          have hrest := ih hxs
          rw [List.map_cons] at hrest
          rw [List.map_cons, List.map_cons, List.intercalate_cons_cons, List.flatMap_cons,
            List.append_assoc]
          have hbehind := hR.append hsep hrest
          exact hR.append hx hbehind

theorem intercalate_nil (hR : Additive R) (hsep : R sep []) (h : ∀ x ∈ xs, R (f x) []) :
    R (sep.intercalate (xs.map f)) [] := by
  have hwhole := hR.intercalate hsep h
  rwa [List.flatMap_eq_nil_iff.mpr fun _ _ => rfl] at hwhole

end Additive

end Token

/-! ## Marks that stand alone

Brackets, braces, commas and colons are marks whatever follows them, as no longer mark begins
with one. -/

/-- A mark that is no beginning of a longer one. -/
structure Mark.Alone (c : Char) (m : Mark) : Prop where
  starts : Mark.starts c = true
  ofChar_eq : Mark.ofChar c = some m
  short : c ≠ '.' ∧ c ≠ '<' ∧ c ≠ '>' ∧ c ≠ '=' ∧ c ≠ '-'

theorem Mark.Alone.spelt {c : Char} {m : Mark} (h : Mark.Alone c m) (rest : List Char) :
    Token.Spelt [c] (.mark m) rest := by
  obtain ⟨hdot, hless, hgreater, hequal, hminus⟩ := h.short
  refine spelt_mark h.starts h.ofChar_eq (fun d _ => ?_) (fun hc => absurd hc hminus)
  simp [Mark.ofPair, hdot, hless, hgreater, hequal, hminus]

theorem Mark.Alone.scans {c : Char} {m : Mark} (h : Mark.Alone c m) (rest : List Char) :
    Scans [c] [.mark m] rest :=
  (h.spelt rest).scans

theorem clear_space (rest : List Char) : Clear (' ' :: rest) := clear_cons (by decide) rest

theorem scans_space (rest : List Char) : Scans [' '] [] rest := scans_blank rfl rest

namespace ScansAs

variable {cs ds : List Char} {ts us : List Token}

theorem of_scans (h : ∀ rest, Scans cs ts rest) : ScansAs cs ts := fun rest _ => h rest

/-! ## Brackets

What stands between brackets is followed by the closing one, which is clear, and behind the
closing one anything may follow. So brackets need no condition on the rest. -/

/-- Brackets around a text leave its tokens as they are, whatever follows them. -/
theorem bracketed {o c : Char} {mo mc : Mark} (h : ScansAs cs ts) (ho : Mark.Alone o mo)
    (hc : Mark.Alone c mc) (hclear : Token.delimits c = true) (rest : List Char) :
    Scans (o :: (cs ++ [c])) (.mark mo :: (ts ++ [.mark mc])) rest := by
  have hclose : Scans [c] [.mark mc] rest := hc.scans rest
  have hinner : Scans cs ts ([c] ++ rest) := h _ (clear_cons hclear rest)
  exact (ho.scans _).cons (hinner.append hclose)

theorem parens (h : ScansAs cs ts) (rest : List Char) :
    Scans (Text.parens cs) (Token.parens ts) rest :=
  h.bracketed ⟨by decide, rfl, by decide⟩ ⟨by decide, rfl, by decide⟩ (by decide) rest

theorem brackets (h : ScansAs cs ts) (rest : List Char) :
    Scans (Text.brackets cs) (Token.brackets ts) rest :=
  h.bracketed ⟨by decide, rfl, by decide⟩ ⟨by decide, rfl, by decide⟩ (by decide) rest

theorem braces (h : ScansAs cs ts) (rest : List Char) :
    Scans (Text.braces cs) (Token.braces ts) rest :=
  h.bracketed ⟨by decide, rfl, by decide⟩ ⟨by decide, rfl, by decide⟩ (by decide) rest

theorem parensIf (needed : Bool) (h : ScansAs cs ts) :
    ScansAs (Text.parensIf needed cs) (Token.parensIf needed ts) := by
  cases needed with
  | false => exact h
  | true => exact of_scans h.parens

/-! ## Sequences

Two texts can stand next to each other if the second one cannot be taken for more of the first. A
text that begins with a blank, a comma or a bracket cannot. -/

theorem nil : ScansAs [] [] := of_scans scans_nil

theorem append (h : ScansAs cs ts) (h' : ScansAs ds us)
    (hclear : ∀ rest, Clear rest → Clear (ds ++ rest)) : ScansAs (cs ++ ds) (ts ++ us) :=
  fun rest hrest => (h _ (hclear rest hrest)).append (h' rest hrest)

/-- A blank stands between two texts. -/
theorem spaced (h : ScansAs cs ts) (h' : ScansAs ds us) : ScansAs (cs ++ ' ' :: ds) (ts ++ us) := by
  intro rest hrest
  have hright : Scans (' ' :: ds) us rest := (scans_space _).cons (h' rest hrest)
  have hleft : Scans cs ts (' ' :: (ds ++ rest)) := h _ (clear_space _)
  exact hleft.append hright

/-- A separator stands between two of a list of texts. -/
theorem intercalate {α : Type} {sep : List Char} {sepTokens : List Token}
    (hsep : ∀ rest, Scans sep sepTokens rest) (hclear : ∀ rest, Clear (sep ++ rest))
    {f : α → List Char} {g : α → List Token} {xs : List α} (h : ∀ x ∈ xs, ScansAs (f x) (g x)) :
    ScansAs (sep.intercalate (xs.map f)) (sepTokens.intercalate (xs.map g)) := by
  induction xs with
  | nil => exact nil
  | cons x xs ih =>
      obtain ⟨hx, hxs⟩ := List.forall_mem_cons.mp h
      cases xs with
      | nil =>
          rw [List.map_singleton, List.map_singleton, List.intercalate_singleton,
            List.intercalate_singleton]
          exact hx
      | cons y ys =>
          have hys := ih hxs
          rw [List.map_cons, List.map_cons] at hys ⊢
          rw [List.map_cons, List.map_cons, List.intercalate_cons_cons, List.intercalate_cons_cons,
            List.append_assoc, List.append_assoc]
          intro rest hrest
          refine (hx _ ?_).append ((hsep _).append (hys rest hrest))
          rw [List.append_assoc]
          exact hclear _

theorem commas {α : Type} {f : α → List Char} {g : α → List Token} {xs : List α}
    (h : ∀ x ∈ xs, ScansAs (f x) (g x)) :
    ScansAs (Text.commas (xs.map f)) (Token.commas (xs.map g)) := by
  have hcomma : Mark.Alone ',' .comma := ⟨by decide, rfl, by decide⟩
  refine intercalate (fun rest => ?_) (fun rest => clear_cons (by decide) _) h
  exact (hcomma.scans _).cons (scans_space rest)

/-- An operator stands between two operands, with blanks around it. -/
theorem binary {os : List Char} {vs : List Token} (hl : ScansAs cs ts)
    (hop : ∀ rest, Scans os vs (' ' :: rest)) (hr : ScansAs ds us) :
    ScansAs (Text.binary cs os ds) (Token.binary ts vs us) := by
  intro rest hrest
  have hright : Scans (' ' :: ds) us rest := (scans_space _).cons (hr rest hrest)
  have hmiddle : Scans (os ++ ' ' :: ds) (vs ++ us) rest := (hop _).append hright
  have hbehind : Scans (' ' :: (os ++ ' ' :: ds)) (vs ++ us) rest := (scans_space _).cons hmiddle
  have hleft : Scans cs ts (' ' :: (os ++ ' ' :: ds ++ rest)) := hl _ (clear_space _)
  exact hleft.append hbehind

/-! ## Names

Keywords, the names of variables and parameters, and keys with what stands behind the colon. -/

theorem keyword {word : String} (h : Name.isPlain word = true) :
    ScansAs word.toList [Token.keyword word] :=
  fun _ hrest => scans_keyword h hrest

theorem words {ws : List String} (h : ∀ w ∈ ws, Name.isPlain w = true) :
    ScansAs (Text.words ws) (Token.words ws) := by
  have : ScansAs (Text.words ws) (([] : List Token).intercalate (ws.map fun w => [.keyword w])) :=
    intercalate scans_space clear_space fun w hw => keyword (h w hw)
  rw [intercalate_nil_left, ← List.flatMap_def, ← List.map_eq_flatMap] at this
  exact this

theorem mentionVar (n : Names) (v : Variable) :
    ScansAs ((Mention.var v).written n) [.ofBinding (n.var v)] :=
  fun _ hrest => scans_binding _ hrest

theorem mentionParam (n : Names) (p : Param) :
    ScansAs ((Mention.param p).written n) [.mark .dollar, .ofBinding (n.param p)] := by
  have hdollar : Mark.Alone '$' .dollar := ⟨by decide, rfl, by decide⟩
  exact fun rest hrest => (hdollar.scans _).cons (scans_binding _ hrest)

theorem entry (key : String) (h : ScansAs cs ts) :
    ScansAs (Text.entry key cs) (Token.entry key ts) := by
  have hcolon : Mark.Alone ':' .colon := ⟨by decide, rfl, by decide⟩
  intro rest hrest
  have hvalue : Scans (' ' :: cs) ts rest := (scans_space _).cons (h rest hrest)
  have hbehind : Scans (':' :: ' ' :: cs) (.mark .colon :: ts) rest := (hcolon.scans _).cons hvalue
  have hkey : Scans (Name.written key) [.ofName key] (':' :: (' ' :: cs ++ rest)) :=
    scans_name key (clear_cons (by decide) _)
  exact hkey.append hbehind

/-! ## Full stops

A full stop with a digit behind it could be the point of a fraction. No name and no word begins
with a digit, so a full stop between two of them ends the first. -/

/-- A name stands behind a full stop. -/
theorem dotted (h : ScansAs cs ts) (h' : ScansAs ds us)
    (hds : ∃ c tail, ds = c :: tail ∧ (Name.isStart c = true ∨ c = Name.backquote)) :
    ScansAs (cs ++ '.' :: ds) (ts ++ .mark .dot :: us) := by
  obtain ⟨c, tail, rfl, hc⟩ := hds
  have hdot : c ≠ '.' := by
    rintro rfl
    revert hc
    decide
  have hdigit : c.isDigit = false := by
    rcases hc with hc | rfl
    · exact not_isDigit_of_isStart hc
    · decide
  intro rest hrest
  -- what follows is no second full stop, so this is not the mark of a range
  have hmark : Scans ['.'] [.mark .dot] (c :: tail ++ rest) := by
    refine scans_mark (by decide) rfl (fun d hd => ?_) (fun hminus => absurd hminus (by decide))
    rw [← Option.some.inj hd]
    simp [Mark.ofPair, hdot]
  exact (h _ (clear_dot (Number.Literal.noDigit_cons hdigit))).append (hmark.cons (h' _ hrest))

theorem dottedWords {parts : List (List Char)} (h : ∀ p ∈ parts, Name.plainChars p = true) :
    ScansAs (['.'].intercalate parts)
      ([.mark .dot].intercalate (parts.map fun p => [Token.keyword (String.ofList p)])) := by
  induction parts with
  | nil => exact nil
  | cons p ps ih =>
      obtain ⟨hp, hps⟩ := List.forall_mem_cons.mp h
      have hword : ScansAs p [Token.keyword (String.ofList p)] :=
        fun rest hrest => scans_word hp hrest
      cases ps with
      | nil =>
          rw [List.map_singleton, List.intercalate_singleton, List.intercalate_singleton]
          exact hword
      | cons q qs =>
          rw [List.map_cons, List.map_cons, List.intercalate_cons_cons, List.intercalate_cons_cons,
            List.append_assoc, List.append_assoc]
          refine dotted hword (ih hps) ?_
          -- the rest begins as its first part does
          have hq := hps q (List.mem_cons_self ..)
          cases q with
          | nil => simp [Name.plainChars] at hq
          | cons c tail =>
              simp only [Name.plainChars, Bool.and_eq_true] at hq
              cases qs with
              | nil => exact ⟨c, tail, List.intercalate_singleton, Or.inl hq.1⟩
              | cons r rs => exact ⟨c, _, List.intercalate_cons_cons, Or.inl hq.1⟩

theorem function {name : String} (h : Name.isDotted name = true) :
    ScansAs name.toList (Token.function name) := by
  have := dottedWords (List.all_eq_true.mp h)
  rwa [Name.intercalate_dotParts] at this

end ScansAs

end GraphQuery
