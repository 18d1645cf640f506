import GraphQuery.Proofs.Name.LetterCase
import GraphQuery.Proofs.Name.Reading

set_option autoImplicit false

/-! # Written names

Both ways of writing a name can be undone, and where a written name ends can be told from the name
alone. So two names are never written alike. Where a variable or a parameter is named, the names
without backquotes are the plain identifiers that no letter case makes a reserved word
(`backquote_not_mem_writtenBinding_iff`).
-/

namespace GraphQuery.Name

variable {name : String}

theorem backquote_not_mem_of_isPlain (h : isPlain name = true) : backquote ∉ name.toList := by
  intro hmem
  have hpart := List.all_eq_true.mp (all_isPart_of_plainChars h) backquote hmem
  exact absurd hpart (by decide)

theorem backquote_mem_backquoted (cs : List Char) : backquote ∈ backquoted cs := by
  simp [backquoted]

theorem written_injective : Function.Injective written :=
  injective_of_read fun name => read_written name ends_nil

/-- The names that are written without backquotes where a variable or a parameter is named. -/
theorem backquote_not_mem_writtenBinding_iff : backquote ∉ writtenBinding name ↔
    isPlain name = true ∧ ∀ w ∈ reservedWords, ¬ SameLetters name w := by
  by_cases hplain : isPlain name = true
  · have hreserved := isReserved_iff_of_isPlain hplain
    by_cases hr : isReserved name = true
    · obtain ⟨w, hw, hsame⟩ := hreserved.mp hr
      -- a reserved word stands between backquotes although it is plain
      have hquoted : backquote ∈ writtenBinding name := by
        rw [writtenBinding, if_pos hr]
        exact backquote_mem_backquoted _
      constructor
      · intro h
        exact absurd hquoted h
      · rintro ⟨-, hother⟩
        exact absurd hsame (hother w hw)
    · -- any other plain name is written as it is
      have hbare : writtenBinding name = name.toList := by
        rw [writtenBinding, if_neg hr, written, if_pos hplain]
      rw [hbare]
      constructor
      · intro _
        exact ⟨hplain, fun w hw hsame => hr (hreserved.mpr ⟨w, hw, hsame⟩)⟩
      · intro _
        exact backquote_not_mem_of_isPlain hplain
  · -- what is not plain stands between backquotes, reserved or not
    have hquoted : backquote ∈ writtenBinding name := by
      rw [writtenBinding, written, if_neg hplain]
      split
      · exact backquote_mem_backquoted _
      · exact backquote_mem_backquoted _
    constructor
    · intro h
      exact absurd hquoted h
    · rintro ⟨h, -⟩
      exact absurd h hplain

/-- A reserved word has no backquote to be written twice, in whatever letters it is given. -/
theorem doubled_of_isReserved (h : isReserved name = true) :
    doubled name.toList = name.toList :=
  doubled_of_not_mem (backquote_not_mem_of_isReserved h)

/-- **Writing a name is reversible, and a written name ends itself.** In front of a text that can
neither lengthen an identifier nor double a closing backquote, each way of writing a name is read
back as that name. -/
theorem read_written_append (name : String) {rest : List Char} (h : Ends rest) :
    read (written name ++ rest) = some ((name, !isPlain name), rest) ∧
      read (writtenBinding name ++ rest) = some ((name, quotesBinding name), rest) ∧
      Function.Injective written ∧ Function.Injective writtenBinding ∧
      (backquote ∉ writtenBinding name ↔
        isPlain name = true ∧ ∀ w ∈ reservedWords, ¬ SameLetters name w) ∧
      (isReserved name = true → writtenBinding name = backquoted name.toList ∧
        doubled name.toList = name.toList) := by
  refine ⟨read_written name h, read_writtenBinding name h, written_injective,
    fun a b => writtenBinding_inj, backquote_not_mem_writtenBinding_iff, ?_⟩
  intro hr
  constructor
  · rw [writtenBinding, if_pos hr]
  · exact doubled_of_isReserved hr

/-- A reserved word with a letter beyond ASCII, the Kelvin sign, is written between backquotes as it
is and read back. -/
theorem read_written_append_kelvin :
    Ends " AS x".toList ∧ isReserved "s\u212Aip" = true ∧
      writtenBinding "s\u212Aip" = "\x60s\u212Aip\x60".toList ∧
      read (writtenBinding "s\u212Aip" ++ " AS x".toList) =
        some (("s\u212Aip", true), " AS x".toList) := by
  have hends : Ends " AS x".toList := by
    intro c hc
    obtain rfl := Option.some.inj (hc : some ' ' = some c)
    decide
  have hread := (read_written_append "s\u212Aip" hends).2.1
  have hquotes : quotesBinding "s\u212Aip" = true := by decide
  rw [hquotes] at hread
  exact ⟨hends, by decide, by decide, hread⟩

end GraphQuery.Name
