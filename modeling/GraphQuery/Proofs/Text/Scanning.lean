import GraphQuery.Proofs.Text.Reading
import Mathlib.Data.List.DropRight
import Mathlib.Data.List.Infix

set_option autoImplicit false

/-! # Scanning string literals

Where a string literal ends can be told without knowing what its escapes stand for: a backslash
takes the next character with it, whatever it is, and the first quote that is left ends the literal.
Reading a literal is scanning it and then decoding its inside (`readQuoted_eq`).

In a written string each backslash that is not taken itself takes the one character that its
escape needs. So no run of backslashes reaches over to the closing quote, and a written string ends
where its closing quote is, whatever stands behind it (`scan_quoted`).
-/

namespace GraphQuery.Text

/-! ## Scanning and decoding

Scanning and decoding go over a text in the same steps, a backslash with the character behind it
or a single character. So doing one after the other comes to the same as reading. -/

/-- The inside of a literal from behind its opening quote, and the text behind its closing one. -/
def scanInside : List Char → Option (List Char × List Char)
  | [] => none
  | '\'' :: rest => some ([], rest)
  | '\\' :: c :: rest => (scanInside rest).map fun r => ('\\' :: c :: r.1, r.2)
  | ['\\'] => none
  | c :: rest => (scanInside rest).map fun r => (c :: r.1, r.2)

/-- The inside of the literal at the start of a text, and the text behind the literal. -/
def scanLiteral : List Char → Option (List Char × List Char)
  | '\'' :: rest => scanInside rest
  | _ => none

/-- The text that the inside of a literal stands for. -/
def decode : List Char → Option (List Char)
  | [] => some []
  | '\\' :: e :: rest => (unescaped e).bind fun c => (decode rest).map (c :: ·)
  | ['\\'] => none
  | c :: rest => (decode rest).map (c :: ·)

variable {c : Char}

theorem scanInside_cons (hslash : c ≠ '\\') (hquote : c ≠ '\'') (rest : List Char) :
    scanInside (c :: rest) = (scanInside rest).map fun r => (c :: r.1, r.2) := by
  rw [scanInside]
  · exact hquote
  · exact fun _ _ h _ => hslash h
  · exact fun h _ => hslash h

theorem decode_cons (hslash : c ≠ '\\') (rest : List Char) :
    decode (c :: rest) = (decode rest).map (c :: ·) := by
  rw [decode]
  · exact fun _ _ h _ => hslash h
  · exact fun h _ => hslash h

/-- **Reading a literal is scanning it and decoding its inside.** -/
theorem readQuoted_eq (cs : List Char) :
    readQuoted cs = (scanInside cs).bind fun r => (decode r.1).map fun text => (text, r.2) := by
  fun_induction scanInside cs with
  | case1 | case2 rest | case4 => rfl
  | case3 e rest ih =>
      rw [readQuoted_escape, ih]
      rcases scanInside rest with _ | ⟨inside, behind⟩
      · cases unescaped e <;> rfl
      · show (unescaped e).bind (fun c => Option.map _ ((decode inside).map _)) =
          Option.map _ ((unescaped e).bind fun c => (decode inside).map (c :: ·))
        cases unescaped e <;> cases decode inside <;> rfl
  | case5 c rest hquote h₂ h₃ ih =>
      have hslash : c ≠ '\\' := by
        intro hc
        cases rest with
        | nil => exact h₃ hc rfl
        | cons d rest => exact h₂ d rest hc rfl
      rw [readQuoted_cons hslash hquote, ih]
      rcases scanInside rest with _ | ⟨inside, behind⟩
      · rfl
      · show Option.map _ ((decode inside).map _) = Option.map _ (decode (c :: inside))
        rw [decode_cons hslash]
        cases decode inside <;> rfl

/-! ## Written strings

The scan is run on a written string character by character. It does not depend on what stands
behind the closing quote, hence no written string begins another one. -/

def inside (text : String) : List Char := text.toList.flatMap escaped

theorem scanInside_escaped (c : Char) (rest : List Char) :
    scanInside (escaped c ++ rest) = (scanInside rest).map fun r => (escaped c ++ r.1, r.2) := by
  rcases escaped_cases c with ⟨e, he, -⟩ | ⟨he, hslash, hquote, -⟩
  · rw [he]
    rfl
  · rw [he]
    exact scanInside_cons hslash hquote rest

/-- The scan of a written string stops at its closing quote. -/
theorem scanInside_flatMap (cs rest : List Char) :
    scanInside (cs.flatMap escaped ++ '\'' :: rest) = some (cs.flatMap escaped, rest) := by
  induction cs with
  | nil => rfl
  | cons c cs ih =>
      rw [List.flatMap_cons, List.append_assoc, scanInside_escaped, ih]
      rfl

theorem scanLiteral_quoted (text : String) (rest : List Char) :
    scanLiteral (quoted text ++ rest) = some (inside text, rest) := by
  have hquoted : quoted text ++ rest = '\'' :: (inside text ++ '\'' :: rest) := by
    simp [quoted, inside]
  rw [hquoted]
  exact scanInside_flatMap text.toList rest

/-- What is decoded is what was written, because reading the literal gives it back. -/
theorem decode_inside (text : String) : decode (inside text) = some text.toList := by
  have hread := readQuoted_quoted text.toList []
  rw [readQuoted_eq, scanInside_flatMap] at hread
  show decode (text.toList.flatMap escaped) = some text.toList
  cases h : decode (text.toList.flatMap escaped) with
  | none => simp [h] at hread
  | some cs => simpa [h] using hread

theorem quoted_injective : Function.Injective quoted := by
  intro a b h
  have ha := scanLiteral_quoted a []
  rw [h, scanLiteral_quoted b []] at ha
  have hinside : inside b = inside a := congrArg Prod.fst (Option.some.inj ha)
  have hdecode := decode_inside b
  rw [hinside, decode_inside a] at hdecode
  exact String.toList_inj.mp (Option.some.inj hdecode)

/-- A written string does not begin another one. -/
theorem eq_of_quoted_prefix {a b : String} (h : quoted a <+: quoted b) : a = b := by
  obtain ⟨rest, hrest⟩ := h
  have ha := scanLiteral_quoted a rest
  have hb := scanLiteral_quoted b []
  rw [List.append_nil, ← hrest, ha] at hb
  have hnil : rest = [] := congrArg Prod.snd (Option.some.inj hb)
  rw [hnil, List.append_nil] at hrest
  exact quoted_injective hrest

/-! ## The inside of a written string

Whether a backslash waits for the next character is a matter of parity: it does at the end of a
run of odd length. Behind every written character the answer is the same as at the beginning. -/

theorem not_mem_inside {d : Char} (hd : d = '\n' ∨ d = '\r' ∨ d = '\t') (text : String) :
    d ∉ inside text := by
  have hraw : d ≠ '\\' ∧ unescaped d = none := by
    rcases hd with rfl | rfl | rfl <;> exact ⟨by decide, rfl⟩
  rw [inside, List.mem_flatMap]
  rintro ⟨c, -, hmem⟩
  rcases escaped_cases c with ⟨e, he, hc⟩ | ⟨he, -, -, hn, hr, ht⟩
  · rw [he] at hmem
    rcases List.mem_cons.mp hmem with hslash | hmem
    · exact hraw.1 hslash
    · rw [← List.mem_singleton.mp hmem, hraw.2] at hc
      simp at hc
  · rw [he, List.mem_singleton] at hmem
    subst hmem
    rcases hd with rfl | rfl | rfl
    · exact hn rfl
    · exact hr rfl
    · exact ht rfl

/-- Whether the backslash at the end of a text, if there is one, waits for the character behind
it. -/
def waits (cs : List Char) : Bool := cs.foldl (fun waiting c => !waiting && c == '\\') false

theorem waits_concat (cs : List Char) (c : Char) :
    waits (cs ++ [c]) = (!waits cs && c == '\\') := by
  simp [waits]

/-- A backslash waits if it ends a run of backslashes of odd length. -/
theorem waits_iff (cs : List Char) :
    waits cs = true ↔ (cs.rtakeWhile (· == '\\')).length % 2 = 1 := by
  induction cs using List.reverseRecOn with
  | nil => simp [waits]
  | append_singleton cs c ih =>
      rw [waits_concat]
      by_cases hc : c = '\\'
      · rw [List.rtakeWhile_concat_pos _ _ _ (by simpa using hc), List.length_append,
          List.length_singleton]
        cases hw : waits cs with
        | false =>
            rw [hw] at ih
            simp only [hc, Bool.not_false, beq_self_eq_true, Bool.and_self, true_iff]
            have := mt ih.mpr (by simp)
            omega
        | true =>
            have := ih.mp hw
            simp only [Bool.not_true, Bool.false_and, Bool.false_eq_true, false_iff]
            omega
      · rw [List.rtakeWhile_concat_neg _ _ _ (by simpa using hc)]
        simp [hc]

/-- Nothing waits behind a written character, so what comes next stands as at the beginning. -/
theorem waits_escaped_append (c : Char) (cs : List Char) : waits (escaped c ++ cs) = waits cs := by
  have hescaped : waits (escaped c) = false := by
    rcases escaped_cases c with ⟨e, he, -⟩ | ⟨he, hslash, -⟩
    · rw [he]
      simp [waits]
    · rw [he]
      simp [waits, hslash]
  rw [waits, List.foldl_append]
  show cs.foldl _ (waits (escaped c)) = _
  rw [hescaped]
  rfl

/-- A quote in what is written for one character is behind the backslash that takes it. -/
theorem waits_of_escaped_eq {c : Char} {before after : List Char}
    (h : escaped c = before ++ '\'' :: after) : waits before = true := by
  rcases escaped_cases c with ⟨e, he, -⟩ | ⟨he, -, hquote, -⟩
  · rw [he] at h
    rcases before with _ | ⟨d, before⟩
    · exact absurd (List.cons.inj h).1 (by decide)
    · rw [List.cons_append] at h
      obtain ⟨rfl, hrest⟩ := List.cons.inj h
      have hbefore : before = [] := by
        have hlength := congrArg List.length hrest
        simp only [List.length_append, List.length_cons, List.length_nil] at hlength
        exact List.length_eq_zero_iff.mp (by omega)
      rw [hbefore]
      rfl
  · have hmem : '\'' ∈ escaped c := by simp [h]
    rw [he, List.mem_singleton] at hmem
    exact absurd hmem.symm hquote

/-- Every quote in a written string is behind the backslash that takes it. -/
theorem waits_of_flatMap_eq {cs before after : List Char}
    (h : cs.flatMap escaped = before ++ '\'' :: after) : waits before = true := by
  induction cs generalizing before with
  | nil => simp at h
  | cons c cs ih =>
      rw [List.flatMap_cons, List.append_eq_append_iff] at h
      rcases h with ⟨before', rfl, hrest⟩ | ⟨taken, hc, hrest⟩
      · rw [waits_escaped_append]
        exact ih hrest
      · cases taken with
        | nil =>
            -- the quote comes right behind what is written for the first character
            rw [List.append_nil] at hc
            rw [← hc, ← List.append_nil (escaped c), waits_escaped_append]
            exact ih hrest.symm
        | cons d taken =>
            obtain ⟨rfl, -⟩ := List.cons.inj hrest
            exact waits_of_escaped_eq hc

/-- **Quoting is reversible, and a written string ends itself.** -/
theorem scan_quoted (text : String) (rest : List Char) :
    (∃ inside, quoted text = '\'' :: (inside ++ ['\'']) ∧
      scanLiteral (quoted text ++ rest) = some (inside, rest) ∧
      decode inside = some text.toList ∧
      '\n' ∉ inside ∧ '\r' ∉ inside ∧ '\t' ∉ inside ∧
      ∀ before after, inside = before ++ '\'' :: after →
        (before.rtakeWhile (· == '\\')).length % 2 = 1) ∧
      Function.Injective quoted ∧
      ∀ a b : String, quoted a <+: quoted b → a = b := by
  refine ⟨⟨inside text, rfl, scanLiteral_quoted text rest, decode_inside text,
    not_mem_inside (by simp) text, not_mem_inside (by simp) text, not_mem_inside (by simp) text,
    ?_⟩, quoted_injective, fun a b => eq_of_quoted_prefix⟩
  intro before after h
  exact (waits_iff before).mp (waits_of_flatMap_eq h)

end GraphQuery.Text
