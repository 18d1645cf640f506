import GraphQuery.Name.Written

set_option autoImplicit false

/-! # Reading names

A name token is a plain identifier, which ends before the first character that cannot stand inside
one, or a text between backquotes in which two backquotes stand for one. Reading a written name
gives back the name the caller had in mind and stops right behind it, whatever characters the name
has, as long as what follows can neither lengthen an identifier nor double the closing backquote.
-/

namespace GraphQuery.Name

/-! ## The reader

The reader does not know which name was written. It decides by the first character whether the
name stands between backquotes, and then goes on to the first character that ends it. -/

/-- A name from behind its opening backquote, and the text behind its closing one. -/
def readBackquoted : List Char → Option (List Char × List Char)
  | [] => none
  | [c] => if c = backquote then some ([], []) else none
  | c :: d :: rest =>
      if c = backquote then
        if d = backquote then (readBackquoted rest).map fun r => (backquote :: r.1, r.2)
        else some ([], d :: rest)
      else (readBackquoted (d :: rest)).map fun r => (c :: r.1, r.2)

/-- The name at the start of a text, whether it stands between backquotes, and the text behind
it. -/
def read : List Char → Option ((String × Bool) × List Char)
  | [] => none
  | c :: rest =>
      if c = backquote then
        (readBackquoted rest).map fun r => ((String.ofList r.1, true), r.2)
      else if isStart c then
        some ((String.ofList (c :: rest.takeWhile isPart), false), rest.dropWhile isPart)
      else none

/-- A text that cannot be taken for more of the name before it. -/
def Ends (rest : List Char) : Prop := ∀ c ∈ rest.head?, isPart c = false ∧ c ≠ backquote

@[simp] theorem ends_nil : Ends [] := by simp [Ends]

@[simp] theorem ends_cons (c : Char) (rest : List Char) :
    Ends (c :: rest) ↔ isPart c = false ∧ c ≠ backquote := by
  simp [Ends]

/-! ## Plain identifiers -/

theorem takeWhile_append_of_ends {cs rest : List Char} (hcs : cs.all isPart = true)
    (hrest : Ends rest) : (cs ++ rest).takeWhile isPart = cs := by
  rw [List.takeWhile_append_of_pos (by simpa using hcs)]
  cases rest with
  | nil => simp
  | cons c rest => simp [((ends_cons c rest).mp hrest).1]

theorem dropWhile_append_of_ends {cs rest : List Char} (hcs : cs.all isPart = true)
    (hrest : Ends rest) : (cs ++ rest).dropWhile isPart = rest := by
  rw [List.dropWhile_append_of_pos (by simpa using hcs)]
  cases rest with
  | nil => rfl
  | cons c rest => simp [((ends_cons c rest).mp hrest).1]

theorem not_isStart_backquote : isStart backquote = false := by decide

theorem ne_backquote_of_isStart {c : Char} (h : isStart c = true) : c ≠ backquote := by
  rintro rfl
  rw [not_isStart_backquote] at h
  exact Bool.noConfusion h

/-- A plain identifier is read up to where it ends. -/
theorem read_plain {cs rest : List Char} (hcs : plainChars cs = true) (hrest : Ends rest) :
    read (cs ++ rest) = some ((String.ofList cs, false), rest) := by
  cases cs with
  | nil => simp [plainChars] at hcs
  | cons c cs =>
      simp only [plainChars, Bool.and_eq_true] at hcs
      rw [List.cons_append, read, if_neg (ne_backquote_of_isStart hcs.1), if_pos hcs.1,
        takeWhile_append_of_ends hcs.2 hrest, dropWhile_append_of_ends hcs.2 hrest]

/-! ## Dotted identifiers -/

/-- The parts of a text with a full stop between two of them are the text. -/
theorem intercalate_dotParts (cs : List Char) : ['.'].intercalate (dotParts cs) = cs := by
  induction cs with
  | nil => rfl
  | cons c cs ih =>
      rw [dotParts]
      obtain ⟨p, ps, hparts⟩ := List.exists_cons_of_ne_nil (dotParts_ne_nil cs)
      split
      next hc =>
          rw [hparts] at ih ⊢
          rw [List.intercalate_cons_cons, ih, eq_of_beq hc]
          rfl
      · rw [hparts] at ih ⊢
        rw [← ih]
        cases ps with
        | nil => simp
        | cons q qs => simp [List.intercalate_cons_cons]

/-- Parts without full stops are the parts of the name that they make. -/
theorem dotParts_intercalate {parts : List (List Char)} (hne : parts ≠ [])
    (h : ∀ p ∈ parts, '.' ∉ p) : dotParts (['.'].intercalate parts) = parts := by
  have hstop : ∀ p : List Char, '.' ∉ p → ∀ rest,
      dotParts (p ++ '.' :: rest) = p :: dotParts rest := by
    intro p hp rest
    induction p with
    | nil => rfl
    | cons c cs ih =>
        obtain ⟨hc, hcs⟩ := not_or.mp (mt List.mem_cons.mpr hp)
        rw [List.cons_append, dotParts, if_neg (by simpa using Ne.symm hc), ih hcs]
  induction parts with
  | nil => exact absurd rfl hne
  | cons p ps ih =>
      obtain ⟨hp, hps⟩ := List.forall_mem_cons.mp h
      cases ps with
      | nil => rw [List.intercalate_singleton, dotParts_of_no_stop hp]
      | cons q qs =>
          rw [List.intercalate_cons_cons, List.append_assoc, List.singleton_append, hstop p hp,
            ih (List.cons_ne_nil _ _) hps]

/-! ## Names between backquotes

A closing backquote is one that no other follows at once. What is behind the name must therefore
not begin with a backquote, or the two would be read as one that belongs to the name. -/

theorem readBackquoted_close {rest : List Char} (h : rest.head? ≠ some backquote) :
    readBackquoted (backquote :: rest) = some ([], rest) := by
  cases rest with
  | nil => rfl
  | cons d rest =>
      have hd : d ≠ backquote := by simpa using h
      simp [readBackquoted, hd]

theorem readBackquoted_cons {c : Char} {cs : List Char} (hc : c ≠ backquote) (hcs : cs ≠ []) :
    readBackquoted (c :: cs) = (readBackquoted cs).map fun r => (c :: r.1, r.2) := by
  cases cs with
  | nil => exact absurd rfl hcs
  | cons d cs => simp [readBackquoted, hc]

/-- Doubled backquotes are read as single ones, up to the closing one. -/
theorem readBackquoted_doubled (cs : List Char) {rest : List Char}
    (h : rest.head? ≠ some backquote) :
    readBackquoted (doubled cs ++ backquote :: rest) = some (cs, rest) := by
  induction cs with
  | nil => exact readBackquoted_close h
  | cons c cs ih =>
      by_cases hc : c = backquote
      · simp [doubled, hc, readBackquoted, ih]
      · rw [doubled, if_neg hc, List.cons_append, readBackquoted_cons hc (by simp), ih]
        rfl

theorem head?_ne_of_ends {rest : List Char} (h : Ends rest) : rest.head? ≠ some backquote :=
  fun hb => (h backquote hb).2 rfl

theorem read_backquoted_doubled (cs : List Char) {rest : List Char} (h : Ends rest) :
    read (backquoted (doubled cs) ++ rest) = some ((String.ofList cs, true), rest) := by
  have hb := readBackquoted_doubled cs (head?_ne_of_ends h)
  simp [backquoted, read, hb]

/-! ## Reserved words

A reserved word is put between backquotes without doubling. That is right because it cannot
contain a backquote, which is not obvious: letters beyond ASCII are compared by their small
letters. -/

theorem doubled_of_not_mem {cs : List Char} (h : backquote ∉ cs) : doubled cs = cs := by
  induction cs with
  | nil => rfl
  | cons c cs ih =>
      simp only [List.mem_cons, not_or] at h
      rw [doubled, if_neg (Ne.symm h.1), ih h.2]

theorem backquote_not_mem_reservedWords :
    ∀ w ∈ reservedWords, backquote ∉ w.toList := by
  decide

/-- A name that is a reserved word in some letter case has no backquote in it, though it may have
letters beyond ASCII. -/
theorem backquote_not_mem_of_isReserved {name : String} (h : isReserved name = true) :
    backquote ∉ name.toList := by
  intro hb
  have hmem : smallLetters name ∈ reservedWords := by simpa [isReserved] using h
  refine backquote_not_mem_reservedWords _ hmem ?_
  have hsmall : smallLetter backquote = backquote := by decide
  rw [smallLetters, String.toList_ofList]
  exact List.mem_map.mpr ⟨backquote, hb, hsmall⟩

/-! ## First characters -/

theorem exists_cons_written (name : String) :
    ∃ c tail, written name = c :: tail ∧ (isStart c = true ∨ c = backquote) := by
  unfold written
  split
  next h =>
      unfold isPlain at h
      cases hcs : name.toList with
      | nil => rw [hcs] at h; simp [plainChars] at h
      | cons c tail =>
          rw [hcs, plainChars, Bool.and_eq_true] at h
          exact ⟨c, tail, rfl, Or.inl h.1⟩
  · exact ⟨backquote, _, rfl, Or.inr rfl⟩

theorem exists_cons_writtenBinding (name : String) :
    ∃ c tail, writtenBinding name = c :: tail ∧ (isStart c = true ∨ c = backquote) := by
  unfold writtenBinding
  split
  · exact ⟨backquote, _, rfl, Or.inr rfl⟩
  · exact exists_cons_written name

/-! ## Reading back what was written

Reading back is stronger than being told apart, and the second follows from the first for any way
of writing that has a reader. -/

/-- **A written name is read back**, and nothing of what follows it. -/
theorem read_written (name : String) {rest : List Char} (h : Ends rest) :
    read (written name ++ rest) = some ((name, !isPlain name), rest) := by
  by_cases hp : isPlain name = true
  · have := read_plain (by simpa [isPlain] using hp) h
    simpa [written, hp] using this
  · have := read_backquoted_doubled name.toList h
    simpa [written, hp] using this

/-- Whether the name of a variable or a parameter is written between backquotes. -/
def quotesBinding (name : String) : Bool := isReserved name || !isPlain name

/-- **A written variable or parameter name is read back**, also where the reserved word test puts
it between backquotes as it is. -/
theorem read_writtenBinding (name : String) {rest : List Char} (h : Ends rest) :
    read (writtenBinding name ++ rest) = some ((name, quotesBinding name), rest) := by
  by_cases hr : isReserved name = true
  · -- a reserved word is not doubled, and has nothing to double
    have := read_backquoted_doubled name.toList h
    rw [doubled_of_not_mem (backquote_not_mem_of_isReserved hr)] at this
    simpa [writtenBinding, quotesBinding, hr] using this
  · simpa [writtenBinding, quotesBinding, hr] using read_written name h

/-- A way of writing names that can be read back writes no two names alike. -/
theorem injective_of_read {write : String → List Char} {quotes : String → Bool}
    (h : ∀ name, read (write name ++ []) = some ((name, quotes name), [])) :
    Function.Injective write := by
  intro a b hab
  have ha := h a
  rw [hab, h b] at ha
  exact (congrArg (fun r => r.1.1) (Option.some.inj ha)).symm

theorem writtenBinding_inj {a b : String} (h : writtenBinding a = writtenBinding b) : a = b :=
  injective_of_read (fun name => read_writtenBinding name ends_nil) h

end GraphQuery.Name
