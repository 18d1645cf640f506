import GraphQuery.Proofs.Statement.Push
import GraphQuery.Proofs.Token.Exposure

set_option autoImplicit false

/-! # Reading keywords

The keywords that clause words come to, with `OPTIONAL MATCH` and `DETACH DELETE` as one each
(`Keyword.readAll`). Reading the clause words off the text of a statement gives the keywords of its
clauses, unless the name of a function begins with such a word that the statement calls outside all
brackets (`Statement.readAll_text_iff`). Then there is one keyword too many, as in `RETURN` of a
call of `delete` (`Statement.readAll_text_deletion`).
-/

namespace GraphQuery

namespace Keyword

/-! ## From clause words to keywords

The words of no keyword begin with those of another one, so they can be read from left to right
without looking ahead, and in one way only. -/

theorem mem_all (k : Keyword) : k ∈ all := by
  cases k <;> decide

/-- The keyword at the start of some clause words, and the words behind it. -/
def readWords (ws : List String) : Option (Keyword × List String) :=
  (all.find? fun k => k.clauseWords.isPrefixOf ws).map fun k =>
    (k, ws.drop k.clauseWords.length)

theorem clauseWords_ne_nil (k : Keyword) : k.clauseWords ≠ [] := by
  cases k <;> decide

/-- The words of no keyword begin with those of another one. -/
theorem eq_of_prefix_clauseWords {k k' : Keyword} (h : k.clauseWords <+: k'.clauseWords) :
    k = k' := by
  have hall : ∀ k ∈ all, ∀ k' ∈ all, k.clauseWords <+: k'.clauseWords → k = k' := by decide
  exact hall k (mem_all k) k' (mem_all k') h

theorem readWords_eq_some_iff {ws rest : List String} {k : Keyword} :
    readWords ws = some (k, rest) ↔ ws = k.clauseWords ++ rest := by
  simp only [readWords, Option.map_eq_some_iff, Prod.mk.injEq]
  constructor
  · rintro ⟨k, hk, rfl, rfl⟩
    have hprefix : k.clauseWords.isPrefixOf ws = true := by simpa using List.find?_some hk
    obtain ⟨rest, rfl⟩ := List.isPrefixOf_iff_prefix.mp hprefix
    rw [List.drop_left]
  · rintro rfl
    have hprefix : k.clauseWords <+: k.clauseWords ++ rest := List.prefix_append ..
    cases hfind : all.find? fun k' => k'.clauseWords.isPrefixOf (k.clauseWords ++ rest) with
    | none =>
        have hnone := List.find?_eq_none.mp hfind k (mem_all k)
        exact absurd (List.isPrefixOf_iff_prefix.mpr hprefix) hnone
    | some k' =>
        -- of two keywords at the start of the same words, one begins with the other
        have hfound : k'.clauseWords.isPrefixOf (k.clauseWords ++ rest) = true := by
          simpa using List.find?_some hfind
        have hsame : k' = k := by
          rcases List.prefix_or_prefix_of_prefix (List.isPrefixOf_iff_prefix.mp hfound) hprefix
            with h | h
          · exact eq_of_prefix_clauseWords h
          · exact (eq_of_prefix_clauseWords h).symm
        exact ⟨k', rfl, hsame, by rw [hsame, List.drop_left]⟩

theorem length_readWords {ws rest : List String} {k : Keyword} (h : readWords ws = some (k, rest)) :
    rest.length < ws.length := by
  rw [readWords_eq_some_iff.mp h, List.length_append]
  exact Nat.lt_add_of_pos_left (List.length_pos_iff.mpr (clauseWords_ne_nil k))

/-- The keywords that some clause words come to, if they are the words of keywords. -/
def readAll (ws : List String) : Option (List Keyword) :=
  match ws with
  | [] => some []
  | w :: ws =>
      match h : readWords (w :: ws) with
      | none => none
      | some (k, rest) =>
          have : rest.length ≤ ws.length := Nat.le_of_lt_succ (length_readWords h)
          (readAll rest).map (k :: ·)
termination_by ws.length

/-- The words of a keyword are read as this keyword, whatever follows them. -/
theorem readAll_append (k : Keyword) (rest : List String) :
    readAll (k.clauseWords ++ rest) = (readAll rest).map (k :: ·) := by
  have hread := readWords_eq_some_iff.mpr (rfl : k.clauseWords ++ rest = _)
  obtain ⟨w, ws, hws⟩ := List.exists_cons_of_ne_nil (clauseWords_ne_nil k)
  rw [hws, List.cons_append] at hread ⊢
  rw [readAll]
  split
  next hnone =>
      rw [hread] at hnone
      simp at hnone
  next k' rest' hsome =>
      rw [hread] at hsome
      obtain ⟨rfl, rfl⟩ := Prod.mk.inj (Option.some.inj hsome)
      rfl

/-- **Clause words are read back**, and no other words are. -/
theorem readAll_eq_some_iff {ws : List String} {ks : List Keyword} :
    readAll ws = some ks ↔ ws = ks.flatMap clauseWords := by
  constructor
  · intro h
    fun_induction readAll ws generalizing ks with
    | case1 =>
        obtain rfl := Option.some.inj h
        rfl
    | case2 => simp at h
    | case3 w ws k rest hread _ ih =>
        obtain ⟨ks', hks', rfl⟩ := Option.map_eq_some_iff.mp h
        rw [readWords_eq_some_iff.mp hread, ih hks', List.flatMap_cons]
  · rintro rfl
    induction ks with
    | nil => rw [List.flatMap_nil, readAll]
    | cons k ks ih => rw [List.flatMap_cons, readAll_append, ih, Option.map_some]

end Keyword

/-! ## The keywords of a text

The words that the text shows are those of its keywords and those of open calls. They are read as
the keywords exactly if there are none of the second sort, since words that are left over are
more words. -/

/-- Parts that are put behind the members of a list are all empty if the whole stays the same. -/
theorem flatMap_append_eq_self_iff {α β : Type} {f g : α → List β} {xs : List α} :
    (xs.flatMap fun x => f x ++ g x) = xs.flatMap f ↔ ∀ x ∈ xs, g x = [] := by
  constructor
  · intro h
    induction xs with
    | nil => simp
    | cons x xs ih =>
        have hle : (xs.flatMap f).length ≤ (xs.flatMap fun x => f x ++ g x).length := by
          rw [List.length_flatMap, List.length_flatMap]
          exact List.sum_le_sum fun x _ => by simp
        rw [List.flatMap_cons, List.flatMap_cons, List.append_assoc, List.append_right_inj] at h
        -- the rest is not shorter than without the parts, so nothing is left for the first one
        have hnil : g x = [] := by
          have hlength := congrArg List.length h
          rw [List.length_append] at hlength
          exact List.length_eq_zero_iff.mp (by omega)
        rw [hnil, List.nil_append] at h
        exact List.forall_mem_cons.mpr ⟨hnil, ih h⟩
  · intro h
    refine List.flatMap_congr fun x hx => ?_
    rw [h x hx, List.append_nil]

namespace Statement

variable {settings : Settings} {st : Statement}

/-- The clause words in the text of a statement that was built are those of its tokens. -/
theorem clauseWords_text {q : Query} (hnamed : st.Every Expr.Named)
    (h : (st.build settings).result = .ok q) :
    ∃ ts, scan q.text.toList = some ts ∧
      Token.clauseWords 0 .free ts = st.clauses.flatMap fun c =>
        c.keyword.clauseWords ++ c.openCalls.flatMap Name.clauseWords := by
  obtain ⟨-, htext⟩ := build_ok h
  refine ⟨st.tokens (st.namesIn settings), ?_, ?_⟩
  · rw [htext]
    exact (st.scans _ (isBlank_separator settings) hnamed [] clear_nil).scan_eq
  · have hwords := (st.exposes (st.namesIn settings)).exposes []
    rwa [List.append_nil, Token.clauseWords, List.append_nil] at hwords

/-- **The keywords of a text.** The clause words in the text of a statement that was built, read off
outside all brackets, come to the keywords of its clauses exactly if the name of no function begins
with such a word that the statement calls outside all brackets. -/
theorem readAll_text_iff {q : Query} (hnamed : st.Every Expr.Named)
    (h : (st.build settings).result = .ok q) :
    ∃ ts, scan q.text.toList = some ts ∧
      (Keyword.readAll (Token.clauseWords 0 .free ts) = some st.keywords ↔
        ∀ name ∈ st.openCalls, Name.isClauseWord (Name.leadingPart name) = false) := by
  obtain ⟨ts, hscan, hwords⟩ := clauseWords_text hnamed h
  refine ⟨ts, hscan, ?_⟩
  rw [hwords, Keyword.readAll_eq_some_iff, keywords, List.flatMap_map,
    flatMap_append_eq_self_iff, openCalls, List.forall_mem_flatMap]
  refine forall₂_congr fun c _ => ?_
  rw [List.flatMap_eq_nil_iff]
  refine forall₂_congr fun name _ => ?_
  simp [Name.clauseWords]

/-- The text of a statement whose conditions and items are between brackets or call known functions
comes to its keywords. -/
theorem readAll_text_acquaintances :
    acquaintances.Every Expr.Named ∧
      ∃ q ts, (acquaintances.build .standard).result = .ok q ∧ scan q.text.toList = some ts ∧
        Keyword.readAll (Token.clauseWords 0 .free ts) =
          some [.matching, .filter, .returning] := by
  have hnamed : acquaintances.Every Expr.Named := by
    have hcount : Name.isDotted "count" = true := by decide
    simp [Statement.Every, Clause.Every, acquaintances, Clause.exprs, Pattern.exprs,
      Properties.exprs, Segment.exprs, OneOrMore.toList, OneOrMore.single, Expr.Every, Expr.Named,
      hcount]
  -- the one call outside of brackets begins with no clause word
  have hcalls : acquaintances.openCalls = ["count"] := by
    have hloose : (Precedence.comparison < Precedence.not) := by decide
    simp [openCalls, acquaintances, Clause.openCalls, Clause.openExprs, OneOrMore.toList,
      OneOrMore.single, Expr.openCalls, Expr.precedence, hloose]
  have hwords : ∀ name ∈ acquaintances.openCalls,
      Name.isClauseWord (Name.leadingPart name) = false := by
    rw [hcalls]
    decide
  have hbuild : ∃ q, (acquaintances.build .standard).result = .ok q := ⟨_, rfl⟩
  obtain ⟨q, hq⟩ := hbuild
  obtain ⟨ts, hscan, hread⟩ := readAll_text_iff hnamed hq
  exact ⟨hnamed, q, ts, hq, hscan, hread.mpr hwords⟩

/-- A statement that returns what a function gives that is named like a clause. -/
def deletion : Statement :=
  ⟨[.returning ⟨false, .single ⟨.call "delete" false [.literal (.integer 1)], none⟩⟩]⟩

/-- The call is one that is made, and the text that returns it has the words of two clauses. -/
theorem readAll_text_deletion :
    Expr.callOf "delete" false [.literal (.integer 1)] =
        .ok (.call "delete" false [.literal (.integer 1)]) ∧
      deletion.keywords = [.returning] ∧
      ∃ q ts, (deletion.build .standard).result = .ok q ∧ scan q.text.toList = some ts ∧
        Keyword.readAll (Token.clauseWords 0 .free ts) = some [.returning, .delete] := by
  have hname : Name.isDotted "delete" = true := by decide
  have hnamed : deletion.Every Expr.Named := by
    simp [Statement.Every, Clause.Every, deletion, Clause.exprs, OneOrMore.toList,
      OneOrMore.single, Expr.Every, Expr.Named, hname]
  have hunknown : Signature.find? "delete" = none := by decide
  have hcall : Expr.callOf "delete" false [.literal (.integer 1)] =
      .ok (.call "delete" false [.literal (.integer 1)]) := by
    simp [Expr.callOf, functionSpelling, hname, hunknown, Except.map]
  have hbuild : ∃ q, (deletion.build .standard).result = .ok q := ⟨_, rfl⟩
  obtain ⟨q, hq⟩ := hbuild
  obtain ⟨ts, hscan, hwords⟩ := clauseWords_text hnamed hq
  refine ⟨hcall, rfl, q, ts, hq, hscan, ?_⟩
  rw [Keyword.readAll_eq_some_iff, hwords]
  simp only [deletion, List.flatMap_singleton, Clause.openCalls, Clause.openExprs,
    OneOrMore.toList, OneOrMore.single, List.map_cons, List.map_nil, Expr.openCalls]
  decide

end Statement

end GraphQuery
