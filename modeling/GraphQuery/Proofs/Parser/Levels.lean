import GraphQuery.Proofs.Parser.Reading

set_option autoImplicit false

/-! # From level to level

What is read at a level is read at every looser one too, if nothing behind it goes on with it there
(`Grammar.parseAt_of_tighter`). So it is enough to know how an expression is read at its own level.
Brackets bring every expression to the level of atoms, and the lists between brackets are read
member by member.
-/

namespace GraphQuery.Grammar

variable {g : Grammar} {p q : Precedence} {ts rest : List Token} {t : Tree}

/-! ## Where a chain ends

Groups and chains of arithmetic operators are read as long as the next token goes on with their
level. -/

theorem parseMore_of_stops {op : Connective} (h : Stops g op.precedence rest) :
    g.parseMore op rest = some ([], rest) := by
  rw [parseMore, Token.readWord_of_not (Token.not_isWord_of_stops op.word h op.lookup_word)]

theorem parseChain_of_stops (h : Stops g p rest) : g.parseChain p t rest = some (t, rest) := by
  rw [parseChain, Arithmetic.read_eq_none h]

/-! ## One level

From the level below to a level: the reader of a level first reads at the level below, and then
finds nothing to go on with. The level of `NOT` is special, for it looks at the first token
before that. -/

theorem parseGroup_of_below (op : Connective)
    (h : g.parseAt (g.below op.precedence) ts = some (t, rest))
    (hrest : Stops g op.precedence rest) : g.parseGroup op ts = some (t, rest) := by
  rw [parseGroup, parseOperands, h]
  simp only [Option.bind_eq_bind, Option.bind_some, parseMore_of_stops hrest]
  rfl

/-- An arithmetic level is read as a chain behind its first operand. -/
theorem parseAt_chain (op : Arithmetic)
    (h : g.parseAt (g.below op.precedence) ts = some (t, rest)) :
    g.parseAt op.precedence ts = g.parseChain op.precedence t rest := by
  cases op <;> (simp only [Arithmetic.precedence] at h ⊢; rw [parseAt, h]; rfl)

theorem parseAt_of_below (hp : p ≠ .atom) (h : g.parseAt (g.below p) ts = some (t, rest))
    (hrest : Stops g p rest) (hnot : p = .not → ∀ t ∈ ts.head?, t.isWord "not" = false) :
    g.parseAt p ts = some (t, rest) := by
  cases p with
  | or => rw [parseAt]; exact parseGroup_of_below .or h hrest
  | xor => rw [parseAt]; exact parseGroup_of_below .xor h hrest
  | and => rw [parseAt]; exact parseGroup_of_below .and h hrest
  | comparison =>
      rw [parseAt, h]
      simp only [Option.bind_eq_bind, Option.bind_some, Comparison.read_eq_none hrest,
        Token.readIsNull_eq_none hrest]
  | not =>
      rw [parseAt, Token.readWord_of_not (hnot rfl)]
      exact h
  | additive => exact (parseAt_chain .add h).trans (parseChain_of_stops hrest)
  | multiplicative => exact (parseAt_chain .multiply h).trans (parseChain_of_stops hrest)
  | power => exact (parseAt_chain .power h).trans (parseChain_of_stops hrest)
  | atom => exact absurd rfl hp

/-! ## All levels

The step from one level to the next is iterated. The condition on the first token is only needed
if the way passes the level of `NOT`. -/

/-- **What is read at a level is read at every looser level**, if what follows stops there too. On
the way past the level of `NOT` there must be no `NOT` at the start. -/
theorem parseAt_of_tighter (h : g.parseAt q ts = some (t, rest)) (hpq : g.rank p ≤ g.rank q)
    (hrest : Stops g p rest)
    (hnot : g.rank .not < g.rank q → ∀ t ∈ ts.head?, t.isWord "not" = false) :
    g.parseAt p ts = some (t, rest) := by
  -- induction on the number of levels between the two
  obtain ⟨k, hk⟩ : ∃ k, g.rank q = g.rank p + k := Nat.exists_eq_add_of_le hpq
  induction k generalizing p with
  | zero =>
      obtain rfl := Grammar.rank_inj hk
      exact h
  | succ k ih =>
      have hp : p ≠ .atom := by
        rintro rfl
        have := g.rank_le_atom q
        omega
      have hbelow := g.rank_below hp
      have hread := ih (p := g.below p) (by omega) (hrest.mono (by omega)) (by omega)
      refine parseAt_of_below hp hread hrest ?_
      rintro rfl
      exact hnot (by omega)

/-! ## Brackets -/

theorem parseAtom_parens (h : g.parseAt .or (ts ++ .mark .parenClose :: rest) =
      some (t, .mark .parenClose :: rest)) :
    g.parseAtom (Token.parens ts ++ rest) = some (t, rest) := by
  rw [Token.parens, List.cons_append, List.append_assoc, List.singleton_append, parseAtom, h]
  simp

/-! ## Names -/

/-- A name that is no reserved word and behind which nothing is called. -/
theorem parseAtom_binding (raw : String) (hcall : Token.readCallTail rest = none) :
    g.parseAtom (.ofBinding raw :: rest) = some (Tree.ofName raw rest) := by
  unfold Token.ofBinding Name.quotesBinding
  rw [parseAtom]
  cases hreserved : Name.isReserved raw with
  | true => rfl
  | false => cases Name.isPlain raw <;> simp [hcall]

theorem parseAtom_name (hrest : Stops g .atom rest) (raw : String) :
    g.parseAtom (.ofBinding raw :: rest) = some (.var raw, rest) := by
  rw [parseAtom_binding raw (Token.readCallTail_eq_none hrest), Tree.ofName_var hrest]

theorem parseAtom_property (hrest : Stops g .atom rest) (raw key : String) :
    g.parseAtom (.ofBinding raw :: .mark .dot :: .ofName key :: rest) =
      some (.property raw key, rest) := by
  rw [parseAtom_binding raw (Token.readCallTail_key hrest key)]
  rfl

/-! ## Lists

The members of a list need a tree and tokens that are read as it in front of a comma or of what
closes the list. Neither goes on with an expression, so the level of a member is always the
loosest. -/

/-- Tokens that are read as a tree wherever an expression may end. -/
structure ReadsAs (g : Grammar) (ts : List Token) (t : Tree) : Prop where
  leads : ∃ first others, ts = first :: others ∧ first.Leads
  parse : ∀ rest, Stops g .or rest → g.parseAt .or (ts ++ rest) = some (t, rest)

theorem ReadsAs.after_eq_none {m : Mark} (h : ReadsAs g ts t)
    (hm : m ≠ .dollar ∧ m ≠ .parenOpen ∧ m ≠ .bracketOpen ∧ m ≠ .braceOpen) :
    Token.after m (ts ++ rest) = none := by
  obtain ⟨first, others, rfl, hfirst⟩ := h.leads
  refine Token.after_of_ne ?_ _
  intro hmark
  rcases hfirst.mark m hmark with h | h | h | h
  · exact hm.1 h
  · exact hm.2.1 h
  · exact hm.2.2.1 h
  · exact hm.2.2.2 h

section Lists

variable {α : Type} {f : α → List Token} {tree : α → Tree} {xs : List α}

/-- The lists between brackets that have at least one member. -/
theorem parseSomeItems_commas {close : Mark}
    (hclose : close = .bracketClose ∨ close = .parenClose) (hne : xs ≠ [])
    (h : ∀ x ∈ xs, ReadsAs g (f x) (tree x)) :
    g.parseSomeItems close (Token.commas (xs.map f) ++ .mark close :: rest) =
      some (xs.map tree, rest) := by
  induction xs with
  | nil => exact absurd rfl hne
  | cons x xs ih =>
      obtain ⟨hx, hxs⟩ := List.forall_mem_cons.mp h
      cases xs with
      | nil =>
          -- the last item stops at the closing bracket, and no comma follows
          have hstops : Stops g .or (.mark close :: rest) := by
            rcases hclose with rfl | rfl <;> exact stops_of_level?_eq_none rfl _ _ _
          have hcomma : Token.after .comma (.mark close :: rest) = none := by
            rcases hclose with rfl | rfl <;> rfl
          rw [parseSomeItems, List.map_singleton, Token.commas, List.intercalate_singleton,
            hx.parse _ hstops]
          simp [hcomma]
      | cons y ys =>
          -- any other item stops at the comma behind it
          have hys := ih (List.cons_ne_nil _ _) hxs
          have hstops : ∀ rest, Stops g .or (.mark .comma :: rest) :=
            stops_of_level?_eq_none rfl _ _
          rw [List.map_cons, Token.commas] at hys
          rw [parseSomeItems, List.map_cons, List.map_cons, Token.commas,
            List.intercalate_cons_cons, List.append_assoc, List.append_assoc,
            List.singleton_append, hx.parse _ (hstops _)]
          simp [hys]

/-- A list begins as its first member does, or else with what closes it. -/
theorem not_isWord_commas {word : String} (hword : word ∈ Name.reservedWords)
    (hother : word ≠ "not" ∧ word ≠ "null" ∧ word ≠ "true" ∧ word ≠ "false") {close : Mark}
    (h : ∀ x ∈ xs, ReadsAs g (f x) (tree x)) :
    ∀ t ∈ (Token.commas (xs.map f) ++ .mark close :: rest).head?, t.isWord word = false := by
  intro t ht
  cases xs with
  | nil =>
      obtain rfl := Option.some.inj ht
      rfl
  | cons x xs =>
      obtain ⟨first, others, hx, hfirst⟩ := (h x (List.mem_cons_self ..)).leads
      obtain ⟨more, hmore⟩ := Token.exists_commas_cons f x xs
      rw [hmore, hx] at ht
      obtain rfl := Option.some.inj ht
      exact hfirst.not_isWord hword hother

theorem parseItems_commas {close : Mark} (hclose : close = .bracketClose ∨ close = .parenClose)
    (h : ∀ x ∈ xs, ReadsAs g (f x) (tree x)) :
    g.parseItems close (Token.commas (xs.map f) ++ .mark close :: rest) =
      some (xs.map tree, rest) := by
  cases xs with
  | nil =>
      rw [parseItems]
      simp [Token.commas]
  | cons x xs =>
      have hx := (h x (List.mem_cons_self ..))
      have hfirst : Token.after close (Token.commas ((x :: xs).map f) ++ .mark close :: rest) =
          none := by
        obtain ⟨more, hmore⟩ := Token.exists_commas_cons f x xs
        rw [hmore, List.append_assoc]
        refine hx.after_eq_none ?_
        rcases hclose with rfl | rfl <;> decide
      rw [parseItems, hfirst]
      exact parseSomeItems_commas hclose (List.cons_ne_nil _ _) h

/-- The entries between braces, of which there is at least one. -/
theorem parseSomeEntries_commas {es : List (String × α)} (hne : es ≠ [])
    (h : ∀ e ∈ es, ReadsAs g (f e.2) (tree e.2)) :
    g.parseSomeEntries
        (Token.commas (es.map fun e => Token.entry e.1 (f e.2)) ++ .mark .braceClose :: rest) =
      some (es.map fun e => (e.1, tree e.2), rest) := by
  induction es with
  | nil => exact absurd rfl hne
  | cons e es ih =>
      obtain ⟨he, hes⟩ := List.forall_mem_cons.mp h
      cases es with
      | nil =>
          have hstops : Stops g .or (.mark .braceClose :: rest) :=
            stops_of_level?_eq_none rfl _ _ _
          rw [List.map_singleton, Token.commas, List.intercalate_singleton, Token.entry,
            List.cons_append, List.cons_append, Token.ofName, parseSomeEntries, he.parse _ hstops]
          simp [Token.after]
      | cons e' es =>
          have hes' := ih (List.cons_ne_nil _ _) hes
          have hstops : ∀ rest, Stops g .or (.mark .comma :: rest) :=
            stops_of_level?_eq_none rfl _ _
          rw [List.map_cons, Token.commas] at hes'
          rw [List.map_cons, List.map_cons, Token.commas, List.intercalate_cons_cons,
            List.append_assoc, List.append_assoc, List.singleton_append, Token.entry,
            List.cons_append, List.cons_append, Token.ofName, parseSomeEntries,
            he.parse _ (hstops _)]
          simp [hes']

theorem parseEntries_commas {es : List (String × α)}
    (h : ∀ e ∈ es, ReadsAs g (f e.2) (tree e.2)) :
    g.parseEntries
        (Token.commas (es.map fun e => Token.entry e.1 (f e.2)) ++ .mark .braceClose :: rest) =
      some (es.map fun e => (e.1, tree e.2), rest) := by
  cases es with
  | nil =>
      rw [parseEntries]
      simp [Token.commas]
  | cons e es =>
      rw [parseEntries]
      have hfirst : Token.after .braceClose (Token.commas ((e :: es).map fun e =>
          Token.entry e.1 (f e.2)) ++ .mark .braceClose :: rest) = none := by
        cases es <;> rfl
      rw [hfirst]
      exact parseSomeEntries_commas (List.cons_ne_nil _ _) h

end Lists

end GraphQuery.Grammar
