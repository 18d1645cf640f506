import GraphQuery.Proofs.Parser.Reading
import GraphQuery.Proofs.Print.Expr

set_option autoImplicit false

/-! # Reading inline literals

A reader of inline literals that takes one token after the other and stops behind the literal, so
that anything may follow it. The lists and maps that have been opened and not yet closed are kept as
a stack, the innermost first. What the reader does with a printed value is the same wherever it
stands: it comes to the end of it, with the value read (`Value.Reading.reads`).
-/

namespace GraphQuery

/-! ## Tokens

Blanks before a token are skipped. Every token takes a character at least, so a reader that takes
tokens comes to an end. -/

namespace Token

def next (cs : List Char) : Option (Token × List Char) := read (cs.dropWhile isBlank)

theorem length_next {cs : List Char} {r : Token × List Char} (h : next cs = some r) :
    r.2.length < cs.length :=
  Nat.lt_of_lt_of_le (length_read h) (List.length_dropWhile_le isBlank cs)

theorem next_blank {c : Char} (h : isBlank c = true) (cs : List Char) :
    next (c :: cs) = next cs := by
  rw [next, List.dropWhile_cons, if_pos h]
  rfl

theorem Spelt.next_eq {cs : List Char} {t : Token} {rest : List Char} (h : Spelt cs t rest) :
    next (cs ++ rest) = some (t, rest) := by
  obtain ⟨c, tail, rfl⟩ := List.exists_cons_of_ne_nil h.ne_nil
  rw [← h.read_eq, next, List.cons_append, List.dropWhile_cons, if_neg]
  simp [h.head c rfl]

/-- The value that a single token is. -/
def value? : Token → Option Value
  | .number text => Number.Literal.decode text
  | .string raw => some (.string raw)
  | .name word false => Value.ofWord (Name.smallLetters word)
  | .name _ true | .mark _ => none

end Token

namespace Value

/-! ## The reader

A state is a place in a literal: before a value, before a key, before a colon or behind a part,
each with the lists and maps that are open. A state with a literal in it that is complete takes
no further token, even if there are characters left. -/

/-- A list or a map around the value that is read: the items of the list that have been read, or the
entries of the map and the key of the value. The last item or entry is the first one here. -/
inductive Frame where
  | list (items : List Value)
  | map (entries : List (String × Value)) (key : String)

/-- How far a literal has been read, with the lists and maps around the place. -/
inductive Reading where
  /-- A value comes next. -/
  | value (around : List Frame)
  /-- The key of an entry comes next. -/
  | key (entries : List (String × Value)) (around : List Frame)
  /-- The colon behind a key comes next. -/
  | colon (entries : List (String × Value)) (key : String) (around : List Frame)
  /-- A value in a list or a map has been read. -/
  | part (v : Value) (frame : Frame) (around : List Frame)
  /-- The literal has been read. -/
  | done (v : Value)

namespace Reading

/-- How far a literal has been read when a value in it has been read. -/
def after (v : Value) : List Frame → Reading
  | [] => .done v
  | frame :: around => .part v frame around

/-- What one token changes. A bracket or a brace that closes is accepted behind an item or an entry,
and directly behind the one that opens. -/
def step : Reading → Token → Option Reading
  | .value around, .mark .bracketOpen => some (.value (.list [] :: around))
  | .value around, .mark .braceOpen => some (.key [] around)
  | .value (.list [] :: around), .mark .bracketClose => some (after (.list []) around)
  | .value around, t => t.value?.map fun v => after v around
  | .key [] around, .mark .braceClose => some (after (.map []) around)
  | .key entries around, .name k _ => some (.colon entries k around)
  | .colon entries k around, .mark .colon => some (.value (.map entries k :: around))
  | .part v (.list items) around, .mark .comma => some (.value (.list (v :: items) :: around))
  | .part v (.list items) around, .mark .bracketClose =>
      some (after (.list (v :: items).reverse) around)
  | .part v (.map entries k) around, .mark .comma => some (.key ((k, v) :: entries) around)
  | .part v (.map entries k) around, .mark .braceClose =>
      some (after (.map ((k, v) :: entries).reverse) around)
  | _, _ => none

def result? : Reading → Option Value
  | .done v => some v
  | .value _ | .key _ _ | .colon _ _ _ | .part _ _ _ => none

/-- The literal that is read, and the text behind it. -/
def run (p : Reading) (cs : List Char) : Option (Value × List Char) :=
  match p.result? with
  | some v => some (v, cs)
  | none =>
      match h : Token.next cs with
      | none => none
      | some (t, rest) =>
          -- a token takes one character at least, so the reader comes to an end
          have : rest.length < cs.length := Token.length_next h
          (p.step t).bind fun p' => p'.run rest
termination_by cs.length

end Reading

/-- The literal at the start of a text, and the text behind it. -/
def read (cs : List Char) : Option (Value × List Char) := (Reading.value []).run cs

/-! ## What one token does

What stands before a value, a key or a mark is a state in which that token is accepted. These
lemmas move the reader over one token, or over a blank. -/

namespace Reading

variable {p p' : Reading} {cs rest : List Char} {t : Token} {around : List Frame}

theorem run_done (v : Value) (cs : List Char) : (done v).run cs = some (v, cs) := by
  rw [run, result?]

theorem run_eq (h : p.result? = none) (cs : List Char) :
    p.run cs = (Token.next cs).bind fun r => (p.step r.1).bind fun p' => p'.run r.2 := by
  rw [run, h]
  dsimp only
  split
  next hnone => rw [hnone]; rfl
  next t rest hsome => rw [hsome]; rfl

theorem result?_of_step (h : p.step t = some p') : p.result? = none := by
  cases p with
  | done v => simp [step] at h
  | value around | key entries around | colon entries k around | part v frame around => rfl

/-- One token is taken where it is spelt. -/
theorem run_spelt (hp : p.step t = some p') (h : Token.Spelt cs t rest) :
    p.run (cs ++ rest) = p'.run rest := by
  rw [run_eq (result?_of_step hp), h.next_eq, Option.bind_some, hp, Option.bind_some]

/-- A blank changes nothing while something is to come. -/
theorem run_space (h : p.result? = none) (cs : List Char) : p.run (' ' :: cs) = p.run cs := by
  rw [run_eq h, run_eq h, Token.next_blank rfl]

theorem run_mark {c : Char} {m : Mark} (hp : p.step (.mark m) = some p') (h : Mark.Alone c m)
    (rest : List Char) : p.run (c :: rest) = p'.run rest :=
  run_spelt hp (h.spelt rest)

/-- A token that is a value is taken where a value is to come. -/
theorem step_value {v : Value} (h : t.value? = some v) (around : List Frame) :
    (value around).step t = some (after v around) := by
  cases t with
  | mark m => simp [Token.value?] at h
  | name raw quoted | string raw | number text => simp only [step, h, Option.map_some]

theorem step_key (entries : List (String × Value)) (k : String) (around : List Frame) :
    (key entries around).step (.ofName k) = some (.colon entries k around) := by
  rw [Token.ofName, step]

/-! ## Lists and maps

Both are parts with a comma between two of them, from an opening mark to a closing one. What they
have in common is `Series`, and reading through a series is shown once. -/

/-- A value is read wherever it stands: behind it the reader is at the end of the value. -/
def Reads (v : Value) : Prop :=
  ∀ around rest, Clear rest →
    (value around).run (v.print ++ rest) = (after v around).run rest

/-- What the reader does with the parts of a list or a map: how far it is before a part and behind
one, with the parts before that one, the last one first, and how far behind the mark that closes. -/
structure Series (α : Type) where
  start : List α → Reading
  behind : α → List α → Reading
  stop : List α → Reading
  close : Mark
  result?_start : ∀ before, (start before).result? = none
  step_comma : ∀ x before, (behind x before).step (.mark .comma) = some (start (x :: before))
  step_close : ∀ x before, (behind x before).step (.mark close) = some (stop (x :: before).reverse)
  step_empty : (start []).step (.mark close) = some (stop [])

namespace Series

/-- The items of a list. -/
def items (around : List Frame) : Series Value where
  start before := .value (.list before :: around)
  behind v before := .part v (.list before) around
  stop items := after (.list items) around
  close := .bracketClose
  result?_start _ := rfl
  step_comma _ _ := rfl
  step_close _ _ := rfl
  step_empty := rfl

/-- The entries of a map. -/
def entries (around : List Frame) : Series (String × Value) where
  start before := .key before around
  behind e before := .part e.2 (.map before e.1) around
  stop entries := after (.map entries) around
  close := .braceClose
  result?_start _ := rfl
  step_comma _ _ := rfl
  step_close _ _ := rfl
  step_empty := rfl

variable {α : Type} {f : α → List Char} {c : Char}

/-- Parts behind others that have been read. -/
theorem run_cons (s : Series α) (hc : Mark.Alone c s.close) (hclear : Token.delimits c = true)
    {x : α} {xs : List α}
    (h : ∀ y ∈ x :: xs, ∀ before rest, Clear rest →
      (s.start before).run (f y ++ rest) = (s.behind y before).run rest)
    (before : List α) (rest : List Char) :
    (s.start before).run (Text.commas ((x :: xs).map f) ++ c :: rest) =
      (s.stop (before.reverse ++ x :: xs)).run rest := by
  induction xs generalizing x before with
  | nil =>
      have hx := h x (List.mem_singleton_self x)
      rw [List.map_singleton, Text.commas, List.intercalate_singleton,
        hx _ _ (clear_cons hclear rest), run_mark (s.step_close x before) hc, List.reverse_cons]
  | cons y ys ih =>
      obtain ⟨hx, hys⟩ := List.forall_mem_cons.mp h
      have hrest := ih hys (x :: before)
      rw [List.reverse_cons, List.append_assoc, List.singleton_append] at hrest
      rw [← hrest, Text.commas, List.map_cons, List.map_cons, List.intercalate_cons_cons,
        List.append_assoc, List.append_assoc, List.cons_append, List.singleton_append,
        hx _ _ (clear_cons (by decide) _),
        run_mark (s.step_comma x before) ⟨by decide, rfl, by decide⟩,
        run_space (s.result?_start _)]
      rfl

/-- All parts, behind the mark that opens. -/
theorem run_commas (s : Series α) (hc : Mark.Alone c s.close) (hclear : Token.delimits c = true)
    {xs : List α}
    (h : ∀ x ∈ xs, ∀ before rest, Clear rest →
      (s.start before).run (f x ++ rest) = (s.behind x before).run rest)
    (rest : List Char) :
    (s.start []).run (Text.commas (xs.map f) ++ c :: rest) = (s.stop xs).run rest := by
  cases xs with
  | nil => exact run_mark s.step_empty hc rest
  | cons x xs => exact s.run_cons hc hclear h [] rest

end Series

/-- The value of an entry, behind its key. -/
theorem run_entry {k : String} {v : Value} (h : Reads v) (entries : List (String × Value))
    (around : List Frame) {rest : List Char} (hrest : Clear rest) :
    (key entries around).run (Text.entry k v.print ++ rest) =
      (part v (.map entries k) around).run rest := by
  have hcolon : (colon entries k around).step (.mark .colon) =
      some (value (.map entries k :: around)) := rfl
  have hname : Token.Spelt (Name.written k) (.ofName k) (':' :: ' ' :: (v.print ++ rest)) :=
    spelt_name k (clear_cons (by decide) _)
  rw [Text.entry, List.append_assoc, List.cons_append, List.cons_append,
    run_spelt (step_key entries k around) hname, run_mark hcolon ⟨by decide, rfl, by decide⟩,
    run_space rfl, h _ _ hrest, after]

theorem reads_list {items : List Value} (h : ∀ v ∈ items, Reads v) : Reads (.list items) := by
  intro around rest _
  have hopen : (value around).step (.mark .bracketOpen) = some (value (.list [] :: around)) := rfl
  have hitems := (Series.items around).run_commas (c := ']') ⟨by decide, rfl, by decide⟩
    (by decide) (fun v hv before rest hrest => h v hv (.list before :: around) rest hrest) rest
  rw [print, Text.brackets, List.cons_append, List.append_assoc, List.singleton_append,
    run_mark hopen ⟨by decide, rfl, by decide⟩]
  exact hitems

theorem reads_map {entries : List (String × Value)} (h : ∀ e ∈ entries, Reads e.2) :
    Reads (.map entries) := by
  intro around rest _
  have hopen : (value around).step (.mark .braceOpen) = some (key [] around) := rfl
  have hentries := (Series.entries around).run_commas (c := '\x7d') ⟨by decide, rfl, by decide⟩
    (by decide) (fun e he before rest hrest => run_entry (h e he) before around hrest) rest
  rw [print, Text.braces, List.cons_append, List.append_assoc, List.singleton_append,
    run_mark hopen ⟨by decide, rfl, by decide⟩]
  exact hentries

/-- A value that is a single token. -/
theorem reads_of_spelt {v : Value} (hvalue : t.value? = some v)
    (h : ∀ rest, Clear rest → Token.Spelt v.print t rest) : Reads v :=
  fun around rest hrest => run_spelt (step_value hvalue around) (h rest hrest)

/-- **A printed value is read wherever it stands.** -/
theorem reads (v : Value) (h : Draft.Sound v.draft) : Reads v := by
  induction v with
  | null =>
      refine reads_of_spelt (t := .keyword "NULL") (by decide) fun rest hrest => ?_
      rw [print]
      exact spelt_keyword (by decide) hrest
  | boolean b =>
      refine reads_of_spelt (t := .keyword (if b then "true" else "false")) ?_ fun rest hrest => ?_
      · cases b <;> decide
      · rw [print]
        exact spelt_keyword (by cases b <;> decide) hrest
  | integer n =>
      refine reads_of_spelt (t := .number _) (Number.Literal.decode_integerNumeral n)
        fun rest hrest => ?_
      rw [print]
      exact spelt_integer _ hrest
  | float x =>
      rw [draft] at h
      by_cases hx : x.isFinite = true
      · refine reads_of_spelt (t := .number _) (Number.Literal.decode_floatNumeral hx)
          fun rest hrest => ?_
        rw [print]
        exact spelt_float x hrest
      · simp [hx, noLiteral, Piece.isFault] at h
  | string s =>
      refine reads_of_spelt (t := .string s) rfl fun rest _ => ?_
      rw [print]
      exact spelt_string s rest
  | list items ih =>
      rw [draft, draftItems_eq_map] at h
      exact reads_list fun v hv => ih v hv (h.of_brackets.of_commas (List.mem_map_of_mem hv))
  | map entries ih =>
      rw [draft, draftEntries_eq_map] at h
      exact reads_map fun e he =>
        ih e he (h.of_braces.of_commas (List.mem_map_of_mem he)).of_entry
  | bytes data => simp [draft, noLiteral, Piece.isFault] at h

end Reading

/-! ## Literals

A literal ends where one of the delimiters follows, or the text is over. The delimiters are those
that stand behind a literal in a query. -/

theorem read_print {v : Value} (h : Draft.Sound v.draft) {rest : List Char} (hrest : Clear rest) :
    read (v.print ++ rest) = some (v, rest) := by
  rw [read, Reading.reads v h [] rest hrest, Reading.after, Reading.run_done]

/-- The characters that may stand directly behind a literal. -/
def delimiters : List Char := [',', ']', '\x7d', ')', ' ', '\n']

theorem clear_of_delimiters {rest : List Char} (h : ∀ c ∈ rest.head?, c ∈ delimiters) :
    Clear rest := by
  cases rest with
  | nil => exact clear_nil
  | cons c rest =>
      have hall : delimiters.all Token.delimits = true := by decide
      exact clear_cons (List.all_eq_true.mp hall c (h c rfl)) rest

/-- **An inline literal is read back.** Whatever a literal stands in, the reader takes the literal
with the value that was written, and leaves what is behind it. So values with the same literal are
the same. -/
theorem read_literal :
    (∀ (s s' : Scope) (v : Value) (text : String) (rest : List Char),
      s.render v.draft = (.ok text, s') → (∀ c ∈ rest.head?, c ∈ delimiters) →
        read (text.toList ++ rest) = some (v, rest)) ∧
    ∀ (s s' t t' : Scope) (v w : Value) (text : String),
      s.render v.draft = (.ok text, s') → t.render w.draft = (.ok text, t') → v = w := by
  have hread : ∀ (s s' : Scope) (v : Value) (text : String) (rest : List Char),
      s.render v.draft = (.ok text, s') → (∀ c ∈ rest.head?, c ∈ delimiters) →
        read (text.toList ++ rest) = some (v, rest) := by
    intro s s' v text rest h hrest
    obtain ⟨-, hsound, htext⟩ := Scope.render_ok h
    rw [htext, text_draft _ v hsound]
    exact read_print hsound (clear_of_delimiters hrest)
  refine ⟨hread, fun s s' t t' v w text hv hw => ?_⟩
  have hreadv := hread s s' v text [] hv (by simp)
  have hreadw := hread t t' w text [] hw (by simp)
  exact (Prod.mk.inj (Option.some.inj (hreadv.symm.trans hreadw))).1

/-- A map with a key that is no plain name, a zero with a sign and a string with marks in it, in
front of other items of a list. -/
theorem read_literal_map :
    read ("\x7b`home town`: [-0.0, -7, '],\\'\x7d']\x7d".toList ++ ", true] AND".toList) =
      some (map [("home town", .list [.float ⟨0x8000000000000000⟩, .integer (-7),
        .string "],'\x7d"])], ", true] AND".toList) := by
  have hrender : (Scope.new .standard).render (map [("home town", .list
      [.float ⟨0x8000000000000000⟩, .integer (-7), .string "],'\x7d"])]).draft =
        (.ok "\x7b`home town`: [-0.0, -7, '],\\'\x7d']\x7d", Scope.new .standard) := rfl
  exact read_literal.1 _ _ _ _ _ hrender (by simp [delimiters])

end Value

end GraphQuery
