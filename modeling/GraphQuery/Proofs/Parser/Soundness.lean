import GraphQuery.Proofs.Tree.Written

set_option autoImplicit false

/-! # What a reader takes

Whatever a reader of expressions takes for a tree is written for that tree
(`Grammar.takes_parseAt`): the tokens between its own are those of its operands, each at its level,
and it has left out nothing but round brackets. `Takes g ps ts rest` says that what stands between
the beginning of `ts` and `rest` is written for the parts `ps`.
-/

namespace GraphQuery

/-! ## Names from a scanner

The name of a function is scanned as several words with full stops between them. Put together
again they are one name only if no word has a full stop itself, which a scanner guarantees. -/

/-- A word has no full stop in it. -/
def Token.Undotted (t : Token) : Prop := ∀ raw, t = .name raw false → '.' ∉ raw.toList

theorem Name.not_mem_of_read {cs rest : List Char} {raw : String}
    (h : Name.read cs = some ((raw, false), rest)) : '.' ∉ raw.toList := by
  cases cs with
  | nil => simp [Name.read] at h
  | cons c cs =>
      rw [Name.read] at h
      split at h
      · simp at h
      split at h
      next hstart =>
          obtain ⟨hraw, -⟩ := Prod.mk.inj (Option.some.inj h)
          obtain ⟨rfl, -⟩ := Prod.mk.inj hraw
          rw [String.toList_ofList, List.mem_cons, not_or]
          refine ⟨?_, fun hmem => ?_⟩
          · rintro rfl
            exact absurd hstart (by decide)
          · exact absurd (List.mem_takeWhile_imp hmem) (by decide)
      · simp at h

theorem Token.undotted_of_read {cs rest : List Char} {t : Token}
    (h : Token.read cs = some (t, rest)) : t.Undotted := by
  rintro raw rfl
  cases cs with
  | nil => simp [Token.read] at h
  | cons c cs =>
      rw [Token.read] at h
      split at h
      · obtain ⟨⟨⟨raw', quoted⟩, rest'⟩, hread, hr⟩ := Option.map_eq_some_iff.mp h
        obtain ⟨hname, -⟩ := Prod.mk.inj hr
        obtain ⟨rfl, rfl⟩ := Token.name.inj hname
        exact Name.not_mem_of_read hread
      split at h
      · simp at h
      split at h
      · simp at h
      · simp at h

/-- A scanner finds no words with full stops in them. -/
theorem undotted_of_scan {cs : List Char} {ts : List Token} (h : scan cs = some ts) :
    ∀ t ∈ ts, t.Undotted := by
  fun_induction scan cs generalizing ts with
  | case1 => simp_all
  | case2 c rest hblank ih => exact ih h
  | case3 c rest hblank hread => simp at h
  | case4 c rest hblank t rest' hread hlength ih =>
      obtain ⟨us, hus, rfl⟩ := Option.map_eq_some_iff.mp h
      exact List.forall_mem_cons.mpr ⟨Token.undotted_of_read hread, ih hus⟩

/-! ## What a reader takes

The relation is closed under what readers do: taking a token, reading one part behind another,
going to a looser level and reading between brackets. -/

/-- What stands before the rest is written for parts, if words have no full stops in them. -/
def Takes (g : Grammar) (ps : List Part) (ts rest : List Token) : Prop :=
  (∀ t ∈ ts, t.Undotted) → ∃ us, ts = us ++ rest ∧ Fills g ps us

namespace Takes

variable {g : Grammar} {p q : Precedence} {t l r : Tree} {ps qs : List Part}
  {ts us rest : List Token}

theorem nil (g : Grammar) (ts : List Token) : Takes g [] ts ts := fun _ => ⟨[], rfl, .nil⟩

theorem token {o : Token} (ho : o.isParen = false) (ts : List Token) :
    Takes g [.token] (o :: ts) ts :=
  fun _ => ⟨[o], rfl, .token ho .nil⟩

theorem append (h : Takes g ps ts us) (h' : Takes g qs us rest) : Takes g (ps ++ qs) ts rest := by
  intro hts
  obtain ⟨as, rfl, has⟩ := h hts
  obtain ⟨bs, rfl, hbs⟩ := h' fun t ht => hts t (List.mem_append_right _ ht)
  exact ⟨as ++ bs, (List.append_assoc ..).symm, has.append hbs⟩

theorem imp (h : Takes g ps ts rest) (hps : ∀ us, Fills g ps us → Fills g qs us) :
    Takes g qs ts rest := by
  intro hts
  obtain ⟨us, rfl, hus⟩ := h hts
  exact ⟨us, rfl, hps us hus⟩

theorem mono (h : Takes g [.operand q t] ts rest) (hpq : g.rank p ≤ g.rank q) :
    Takes g [.operand p t] ts rest :=
  h.imp fun _ hus => fills_operand_iff.mpr ((fills_operand_iff.mp hus).mono hpq)

/-- A tree without brackets around it. -/
theorem bare (h : Takes g (t.parts g) ts rest) (hfit : g.rank p ≤ g.rank t.precedence) :
    Takes g [.operand p t] ts rest :=
  h.imp fun _ hus => fills_operand_iff.mpr (.bare hfit hus)

theorem parens (h : Takes g [.operand .or t] ts (.mark .parenClose :: rest)) (p : Precedence) :
    Takes g [.operand p t] (.mark .parenOpen :: ts) rest := by
  intro hts
  obtain ⟨us, rfl, hus⟩ := h fun t ht => hts t (List.mem_cons_of_mem _ ht)
  refine ⟨Token.parens us, ?_, fills_operand_iff.mpr ((fills_operand_iff.mp hus).parens p)⟩
  simp [Token.parens]

end Takes

/-! ## Tokens that are read by themselves

Each small reader takes the tokens of what it gives, or takes nothing. -/

namespace Token

variable {m : Mark} {word : String} {t : Token} {ts rest : List Token}

theorem after_eq_some (h : after m ts = some rest) : ts = .mark m :: rest := by
  cases ts with
  | nil => simp [after] at h
  | cons t ts =>
      simp only [after, Option.ite_none_right_eq_some, Option.some.injEq] at h
      rw [h.1, h.2]

theorem isParen_of_isWord (h : t.isWord word = true) : t.isParen = false := by
  cases t with
  | name raw quoted => rfl
  | _ => simp [isWord] at h

/-- A word that is there is taken, and otherwise nothing. -/
theorem readWord_cases (word : String) (ts : List Token) :
    (∃ t rest, ts = t :: rest ∧ t.isWord word = true ∧ readWord word ts = (true, rest)) ∨
      readWord word ts = (false, ts) := by
  cases ts with
  | nil => exact Or.inr rfl
  | cons t ts =>
      cases h : t.isWord word with
      | true => exact Or.inl ⟨t, ts, rfl, h, readWord_of_isWord h ts⟩
      | false => exact Or.inr (by simp [readWord, h])

theorem takes_readWord (g : Grammar) (word : String) (ts : List Token) :
    Takes g (if (readWord word ts).1 then [.token] else []) ts (readWord word ts).2 := by
  rcases readWord_cases word ts with ⟨t, rest, rfl, ht, hread⟩ | hread
  · rw [hread]
    exact .token (isParen_of_isWord ht) rest
  · rw [hread]
    exact .nil g ts

theorem takes_of_readWord {g : Grammar} (h : readWord word ts = (true, rest)) :
    Takes g [.token] ts rest := by
  have htakes := takes_readWord g word ts
  rwa [h] at htakes

theorem eq_of_readWord (h : readWord word ts = (false, rest)) : ts = rest := by
  rcases readWord_cases word ts with ⟨t, us, -, -, hread⟩ | hread
  · simp [hread] at h
  · exact (Prod.mk.inj (hread.symm.trans h)).2

theorem takes_readIsNull {g : Grammar} {negated : Bool} (h : readIsNull ts = some (negated, rest)) :
    Takes g (Part.ofTokens (isNullWords negated)) ts rest := by
  cases ts with
  | nil => simp [readIsNull] at h
  | cons t ts =>
      simp only [readIsNull] at h
      split at h
      next his =>
          split at h
          next rest' hnull =>
              obtain ⟨rfl, rfl⟩ := Prod.mk.inj (Option.some.inj h)
              have htakes := ((Takes.token (g := g) (isParen_of_isWord his) ts).append
                (takes_readWord g "not" ts)).append (takes_of_readWord hnull)
              cases hnot : (readWord "not" ts).1 with
              | true => rw [hnot] at htakes; exact htakes
              | false => rw [hnot] at htakes; exact htakes
          · simp at h
      · simp at h

/-- What is taken of a name behind its first part are its other parts. -/
theorem readCallTail_eq_some {parts : List String} (h : readCallTail ts = some (parts, rest)) :
    ts = (parts.flatMap fun part => [.mark .dot, keyword part]) ++ .mark .parenOpen :: rest := by
  fun_induction readCallTail ts generalizing parts with
  | case1 ts =>
      obtain ⟨rfl, rfl⟩ := Prod.mk.inj (Option.some.inj h)
      rfl
  | case2 part ts ih =>
      obtain ⟨⟨parts', rest'⟩, hread, hr⟩ := Option.map_eq_some_iff.mp h
      obtain ⟨rfl, rfl⟩ := Prod.mk.inj hr
      rw [ih hread]
      rfl
  | case3 => simp at h

/-- The tokens of a name are those of a function, if words have no full stops in them. -/
theorem function_ofParts {raw : String} {parts : List String}
    (h : ∀ part ∈ raw :: parts, '.' ∉ part.toList) :
    function (Name.ofParts (raw :: parts)) =
      keyword raw :: parts.flatMap fun part => [.mark .dot, keyword part] := by
  have hparts : Name.dotParts (Name.ofParts (raw :: parts)).toList =
      raw.toList :: parts.map String.toList := by
    rw [Name.ofParts, String.toList_ofList]
    exact Name.dotParts_intercalate (by simp) (by simpa using h)
  rw [function_eq hparts, List.flatMap_map]
  simp

end Token

theorem Comparison.takes_read {g : Grammar} {op : Comparison} {ts rest : List Token}
    (h : read ts = some (op, rest)) : Takes g (Part.ofTokens op.tokens) ts rest := by
  cases ts with
  | nil => simp [read] at h
  | cons t ts =>
      cases t with
      | mark m =>
          cases m
          case equal | notEqual | less | greater | lessOrEqual | greaterOrEqual | regex =>
            obtain ⟨rfl, rfl⟩ := Prod.mk.inj (Option.some.inj h)
            exact .token rfl _
          all_goals simp [read] at h
      | name raw quoted =>
          -- a word is one operator alone, or the first half of one that ends with `WITH`
          have hword : Takes g [.token] (.name raw quoted :: ts) ts := .token rfl ts
          simp only [read] at h
          split at h
          · obtain ⟨rfl, rfl⟩ := Prod.mk.inj (Option.some.inj h)
            exact hword
          split at h
          · obtain ⟨rfl, rfl⟩ := Prod.mk.inj (Option.some.inj h)
            exact hword
          split at h
          next rest' hwith =>
              have hboth := hword.append (Token.takes_of_readWord hwith)
              split at h
              · obtain ⟨rfl, rfl⟩ := Prod.mk.inj (Option.some.inj h)
                exact hboth
              split at h
              · obtain ⟨rfl, rfl⟩ := Prod.mk.inj (Option.some.inj h)
                exact hboth
              · simp at h
          · simp at h
      | string raw | number text =>
          simp only [read, Token.isWord, Bool.false_eq_true, if_false] at h
          split at h <;> simp at h

theorem Arithmetic.takes_read {g : Grammar} {op : Arithmetic} {p : Precedence}
    {ts rest : List Token} (h : read p ts = some (op, rest)) :
    op.precedence = p ∧ Takes g [.token] ts rest := by
  cases ts with
  | nil => simp [read] at h
  | cons t ts =>
      cases t with
      | mark m =>
          simp only [read] at h
          split at h
          next op' hop' =>
              split at h
              next hlevel =>
                  obtain ⟨rfl, rfl⟩ := Prod.mk.inj (Option.some.inj h)
                  refine ⟨hlevel, .token ?_ _⟩
                  cases m <;> first | rfl | exact absurd hop' (by simp [ofMark])
              · simp at h
          · simp at h
      | _ => simp [read] at h

/-! ## All readers

The readers call each other, so the statement is about all of them together and the induction
follows their recursion. It has one case for each branch of a reader. -/

namespace Grammar

variable {g : Grammar}

/-- Operands that are read with a connective between two of them are a group, or the only operand
there is. -/
theorem takes_joined (op : Connective) {operands : List Tree} {ts rest : List Token}
    (hne : operands ≠ [])
    (h : Takes g (Part.operands (g.below op.precedence) operands) ts rest) :
    Takes g [.operand op.precedence (Tree.joined op operands)] ts rest := by
  obtain ⟨t, operands, rfl⟩ := List.exists_cons_of_ne_nil hne
  cases operands with
  | nil => exact Takes.mono h (Nat.le_of_lt (g.rank_lt_below op.precedence_ne_atom))
  | cons t' operands => exact Takes.bare h (Nat.le_refl _)

/-- A chain that goes on has the part before as its left operand. -/
theorem takes_chain {op : Arithmetic} {left right : Tree} {start ts us rest : List Token}
    (hleft : Takes g [.operand op.precedence left] start ts) (hop : Takes g [.token] ts us)
    (hright : Takes g [.operand (g.below op.precedence) right] us rest) :
    Takes g [.operand op.precedence (.arith op left right)] start rest :=
  Takes.bare ((hleft.append hop).append hright) (Nat.le_refl _)

/-- A call is its name, a bracket, a `DISTINCT` if there is one, its arguments and a bracket. -/
theorem takes_call {raw : String} {parts : List String} {args : List Tree} {ts us rest : List Token}
    (hts : Token.readCallTail ts = some (parts, us))
    (hargs : Takes g (Part.operands .or args) (Token.readWord "distinct" us).2
      (.mark .parenClose :: rest)) :
    Takes g [.operand .atom (.call (Name.ofParts (raw :: parts)) (Token.readWord "distinct" us).1
      args)] (.name raw false :: ts) rest := by
  intro hundotted
  -- the words that were put together have no full stops, so they are the parts of the name
  have hparts : ∀ part ∈ raw :: parts, '.' ∉ part.toList := by
    rw [Token.readCallTail_eq_some hts] at hundotted
    intro part hpart
    refine hundotted (Token.keyword part) ?_ part rfl
    rcases List.mem_cons.mp hpart with rfl | hpart
    · exact List.mem_cons_self ..
    · exact List.mem_cons_of_mem _ (List.mem_append_left _
        (List.mem_flatMap.mpr ⟨part, hpart, by simp⟩))
  -- the name, the opening bracket, `DISTINCT` and the arguments, the closing bracket
  have hname : Takes g (Part.ofTokens (Token.function (Name.ofParts (raw :: parts))))
      (.name raw false :: ts) (.mark .parenOpen :: us) := by
    intro _
    refine ⟨_, ?_, .ofTokens (Token.isParen_function _)⟩
    rw [Token.function_ofParts hparts, Token.readCallTail_eq_some hts]
    rfl
  have hopen : Takes g [.bracket .parenOpen] (.mark .parenOpen :: us) us :=
    fun _ => ⟨_, rfl, .bracket _ .nil⟩
  have hclose : Takes g [.bracket .parenClose] (.mark .parenClose :: rest) rest :=
    fun _ => ⟨_, rfl, .bracket _ .nil⟩
  have hall := hname.append (hopen.append (((Token.takes_readWord g "distinct" us).append
    hargs).append hclose))
  exact Takes.bare hall (Nat.le_refl _) hundotted

/-- **What is read as a tree is written for that tree**, up to round brackets. -/
theorem takes_parseAt {p : Precedence} {ts : List Token} {r : Tree × List Token}
    (h : g.parseAt p ts = some r) : Takes g [.operand p r.1] ts r.2 := by
  refine Grammar.parseAt.partial_correctness g
    (fun p ts r => Takes g [.operand p r.1] ts r.2)
    (fun ts r => Takes g [.operand .atom r.1] ts r.2)
    (fun ts r => Takes g (Part.entries r.1) ts (.mark .braceClose :: r.2))
    (fun ts r => r.1 ≠ [] ∧ Takes g (Part.entries r.1) ts (.mark .braceClose :: r.2))
    (fun close ts r => Takes g (Part.operands .or r.1) ts (.mark close :: r.2))
    (fun close ts r => r.1 ≠ [] ∧ Takes g (Part.operands .or r.1) ts (.mark close :: r.2))
    (fun p left ts r => ∀ start, Takes g [.operand p left] start ts →
      Takes g [.operand p r.1] start r.2)
    (fun op ts r => Takes g [.operand op.precedence r.1] ts r.2)
    (fun op ts r => r.1 ≠ [] ∧ Takes g (Part.operands (g.below op.precedence) r.1) ts r.2)
    (fun op ts r =>
      Takes g (r.1.flatMap fun t => [.token, .operand (g.below op.precedence) t]) ts r.2)
    ?_ ?_ ?_ ?_ ?_ ?_ ?_ ?_ ?_ ?_ p ts r h
  · -- a level
    intro parseAt parseAtom parseChain parseGroup ihAt ihAtom ihChain ihGroup p ts r h
    cases p with
    | or => exact ihGroup .or ts r h
    | xor => exact ihGroup .xor ts r h
    | and => exact ihGroup .and ts r h
    | comparison =>
        obtain ⟨⟨left, us⟩, hleft, h⟩ := Option.bind_eq_some_iff.mp h
        have hleft := ihAt _ _ _ hleft
        simp only at h
        split at h
        next op vs hop =>
            obtain ⟨⟨right, ws⟩, hright, h⟩ := Option.bind_eq_some_iff.mp h
            obtain rfl := Option.some.inj h
            exact Takes.bare (hleft.append ((Comparison.takes_read hop).append
              (ihAt _ _ _ hright))) (Nat.le_refl _)
        split at h
        next negated vs hnull =>
            obtain rfl := Option.some.inj h
            exact Takes.bare (hleft.append (Token.takes_readIsNull hnull)) (Nat.le_refl _)
        next =>
            obtain rfl := Option.some.inj h
            exact hleft.mono (Nat.le_of_lt (g.rank_lt_below (by decide)))
    | not =>
        simp only at h
        split at h
        next us hnot =>
            obtain ⟨⟨operand, vs⟩, hoperand, h⟩ := Option.bind_eq_some_iff.mp h
            obtain rfl := Option.some.inj h
            exact Takes.bare ((Token.takes_of_readWord hnot).append (ihAt _ _ _ hoperand))
              (Nat.le_refl _)
        next us hnot =>
            obtain rfl := Token.eq_of_readWord hnot
            exact (ihAt _ _ _ h).mono (Nat.le_of_lt (g.rank_lt_below (by decide)))
    | additive | multiplicative | power =>
        obtain ⟨⟨left, us⟩, hleft, h⟩ := Option.bind_eq_some_iff.mp h
        refine ihChain _ left us r h ts ((ihAt _ _ _ hleft).mono ?_)
        exact Nat.le_of_lt (g.rank_lt_below (by decide))
    | atom => exact ihAtom ts r h
  · -- an atom
    intro parseAt parseEntries parseItems ihAt ihEntries ihItems ts r h
    split at h
    · obtain ⟨value, -, rfl⟩ := Option.map_eq_some_iff.mp h
      exact Takes.bare (.token rfl _) (Nat.le_refl _)
    · obtain rfl := Option.some.inj h
      exact Takes.bare (.token rfl _) (Nat.le_refl _)
    · obtain rfl := Option.some.inj h
      exact Takes.bare ((Takes.token rfl _).append (.token rfl _)) (Nat.le_refl _)
    · obtain ⟨⟨t, us⟩, ht, h⟩ := Option.bind_eq_some_iff.mp h
      obtain ⟨vs, hclose, h⟩ := Option.bind_eq_some_iff.mp h
      obtain rfl := Option.some.inj h
      obtain rfl := Token.after_eq_some hclose
      exact Takes.parens (ihAt _ _ _ ht) _
    · obtain ⟨⟨items, us⟩, hitems, h⟩ := Option.bind_eq_some_iff.mp h
      obtain rfl := Option.some.inj h
      exact Takes.bare ((Takes.token rfl _).append ((ihItems _ _ _ hitems).append
        (.token rfl _))) (Nat.le_refl _)
    · obtain ⟨⟨entries, us⟩, hentries, h⟩ := Option.bind_eq_some_iff.mp h
      obtain rfl := Option.some.inj h
      exact Takes.bare ((Takes.token rfl _).append ((ihEntries _ _ hentries).append
        (.token rfl _))) (Nat.le_refl _)
    · -- a name
      next raw quoted ts =>
      split at h
      · obtain ⟨value, -, rfl⟩ := Option.map_eq_some_iff.mp h
        exact Takes.bare (.token rfl _) (Nat.le_refl _)
      split at h
      next parts us htail =>
          obtain ⟨⟨args, vs⟩, hargs, h⟩ := Option.bind_eq_some_iff.mp h
          obtain rfl := Option.some.inj h
          cases quoted with
          | true => simp at htail
          | false => exact takes_call htail (ihItems _ _ _ hargs)
      next =>
          obtain rfl := Option.some.inj h
          unfold Tree.ofName
          split
          · exact Takes.bare ((Takes.token rfl _).append ((Takes.token rfl _).append
              (.token rfl _))) (Nat.le_refl _)
          · exact Takes.bare (.token rfl _) (Nat.le_refl _)
    · simp at h
  · -- the entries of a map
    intro parseSomeEntries ihSome ts r h
    split at h
    next us hclose =>
        obtain rfl := Option.some.inj h
        obtain rfl := Token.after_eq_some hclose
        exact .nil g _
    next => exact (ihSome ts r h).2
  · intro parseAt parseSomeEntries ihAt ihSome ts r h
    split at h
    next key quoted vs =>
      obtain ⟨⟨value, us⟩, hvalue, h⟩ := Option.bind_eq_some_iff.mp h
      have hentry : Takes g (Part.entries [(key, value)])
          (.name key quoted :: .mark .colon :: vs) us :=
        (Takes.token rfl _).append ((Takes.token rfl _).append (ihAt _ _ _ hvalue))
      simp only at h
      split at h
      next vs hcomma =>
          obtain ⟨⟨entries, ws⟩, hentries, h⟩ := Option.bind_eq_some_iff.mp h
          obtain rfl := Option.some.inj h
          obtain rfl := Token.after_eq_some hcomma
          obtain ⟨hne, hentries⟩ := ihSome _ _ hentries
          refine ⟨List.cons_ne_nil _ _, ?_⟩
          rw [Part.entries_cons, ← Part.token_entries hne]
          exact hentry.append ((Takes.token rfl _).append hentries)
      next =>
          obtain ⟨vs, hclose, h⟩ := Option.bind_eq_some_iff.mp h
          obtain rfl := Option.some.inj h
          obtain rfl := Token.after_eq_some hclose
          exact ⟨List.cons_ne_nil _ _, hentry⟩
    · simp at h
  · -- the members of a list
    intro parseSomeItems ihSome close ts r h
    split at h
    next us hclose =>
        obtain rfl := Option.some.inj h
        obtain rfl := Token.after_eq_some hclose
        exact .nil g _
    next => exact (ihSome close ts r h).2
  · intro parseAt parseSomeItems ihAt ihSome close ts r h
    obtain ⟨⟨item, us⟩, hitem, h⟩ := Option.bind_eq_some_iff.mp h
    have hitem := ihAt _ _ _ hitem
    simp only at h
    split at h
    next vs hcomma =>
        obtain ⟨⟨items, ws⟩, hitems, h⟩ := Option.bind_eq_some_iff.mp h
        obtain rfl := Option.some.inj h
        obtain rfl := Token.after_eq_some hcomma
        obtain ⟨hne, hitems⟩ := ihSome _ _ _ hitems
        refine ⟨List.cons_ne_nil _ _, ?_⟩
        rw [Part.operands_cons, ← Part.token_operands _ hne]
        exact hitem.append ((Takes.token rfl _).append hitems)
    next =>
        obtain ⟨vs, hclose, h⟩ := Option.bind_eq_some_iff.mp h
        obtain rfl := Option.some.inj h
        obtain rfl := Token.after_eq_some hclose
        exact ⟨List.cons_ne_nil _ _, hitem⟩
  · -- a chain
    intro parseAt parseChain ihAt ihChain p left ts r h start hleft
    split at h
    next op us hop =>
        obtain ⟨⟨right, vs⟩, hright, h⟩ := Option.bind_eq_some_iff.mp h
        obtain ⟨rfl, hmark⟩ := Arithmetic.takes_read hop
        exact ihChain _ _ _ r h start (takes_chain hleft hmark (ihAt _ _ _ hright))
    next =>
        obtain rfl := Option.some.inj h
        exact hleft
  · -- a group
    intro parseOperands ihOperands op ts r h
    obtain ⟨⟨operands, us⟩, hoperands, h⟩ := Option.bind_eq_some_iff.mp h
    obtain rfl := Option.some.inj h
    obtain ⟨hne, htakes⟩ := ihOperands _ _ _ hoperands
    exact takes_joined op hne htakes
  · -- operands
    intro parseAt parseMore ihAt ihMore op ts r h
    obtain ⟨⟨operand, us⟩, hoperand, h⟩ := Option.bind_eq_some_iff.mp h
    obtain ⟨⟨operands, vs⟩, hoperands, h⟩ := Option.bind_eq_some_iff.mp h
    obtain rfl := Option.some.inj h
    refine ⟨List.cons_ne_nil _ _, ?_⟩
    rw [Part.operands_cons]
    exact (ihAt _ _ _ hoperand).append (ihMore _ _ _ hoperands)
  · -- more operands
    intro parseOperands ihOperands op ts r h
    split at h
    next us hword =>
        obtain ⟨hne, hoperands⟩ := ihOperands _ _ _ h
        rw [← Part.token_operands _ hne]
        exact (Token.takes_of_readWord hword).append hoperands
    next us hword =>
        obtain rfl := Option.some.inj h
        obtain rfl := Token.eq_of_readWord hword
        exact .nil g _

end Grammar

/-- A text that is read as a tree is written for it. -/
theorem Tree.writes_of_read {g : Grammar} {text : String} {t : Tree} {ts : List Token}
    (h : Tree.read g text = some t) (hscan : scan text.toList = some ts) : Writes g .or t ts := by
  rw [Tree.read, hscan, Option.bind_eq_bind, Option.bind_some] at h
  obtain ⟨r, hparse, h⟩ := Option.bind_eq_some_iff.mp h
  obtain ⟨t', rest⟩ := r
  cases rest with
  | nil =>
      obtain rfl := Option.some.inj h
      obtain ⟨us, rfl, hus⟩ := Grammar.takes_parseAt hparse (undotted_of_scan hscan)
      rw [List.append_nil]
      exact fills_operand_iff.mp hus
  | cons o os => simp at h

end GraphQuery
