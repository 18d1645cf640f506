import GraphQuery.Clause.Keyword
import Mathlib.Computability.RegularExpressions
import Mathlib.Data.List.Sublists

set_option autoImplicit false

/-! # The order of clauses

The keywords of a statement in the order that the query language allows, as a regular expression
(`ClauseOrder.statement`): parts that match, change or pass something on, and at the end a part that
returns something.

Whether one more keyword may follow depends on little of what stands before it, the *phase* of the
statement. `ClauseOrder.mem_statement_iff` says that the words of the regular expression are those
that can be run through from phase to phase.
-/

namespace GraphQuery

namespace Keyword

/-- The place of a modifier among the modifiers of one projection, and zero for other keywords. -/
def rank : Keyword → Nat
  | .orderBy => 1
  | .skip => 2
  | .limit => 3
  | _ => 0

/-- Whether a keyword modifies a projection. -/
def isModifier (k : Keyword) : Bool := k.rank != 0

end Keyword

namespace ClauseOrder

open RegularExpression (char)
open scoped Computability

/-! ## The language

From the inside to the outside: the modifiers of a projection, each at most once and in their
order; the parts that return nothing, which match patterns, are a single clause or pass something
on; and the part that returns something. A statement is any number of parts of the first sort and
perhaps one of the second at the end. -/

def optional (k : Keyword) : RegularExpression Keyword := 1 + char k

def modifiers : RegularExpression Keyword := optional .orderBy * optional .skip * optional .limit

def matching : RegularExpression Keyword :=
  (char .matching + char .optionalMatching) * optional .filter

def single : RegularExpression Keyword :=
  char .unwind + char .create + char .merge + char .set + char .delete + char .detachDelete

def passing : RegularExpression Keyword := char .projecting * modifiers * optional .filter

def part : RegularExpression Keyword := matching + single + passing

def result : RegularExpression Keyword := char .returning * modifiers

def statement : RegularExpression Keyword := part.star * (1 + result)

/-! ## Phases

The phases are the states of an automaton for this language. A part may begin in every phase but
behind a `RETURN`, because every part is complete from its first keyword on. -/

/-- What stands at the end of the keywords so far. -/
inductive Phase where
  /-- Nothing that a condition or a modifier could belong to. -/
  | closed
  /-- A pattern without a condition. -/
  | matched
  /-- What is passed on, with modifiers up to a rank. -/
  | passed (rank : Nat)
  /-- What is returned, with modifiers up to a rank. -/
  | returned (rank : Nat)
deriving DecidableEq

namespace Phase

/-- Whether a part may begin. -/
def isOpen : Phase → Bool
  | .returned _ => false
  | _ => true

def start (p q : Phase) : Option Phase := if p.isOpen then some q else none

/-- The phase after a condition. -/
def filter : Phase → Option Phase
  | .matched | .passed _ => some .closed
  | .closed | .returned _ => none

/-- The phase after a modifier, which must come after those of lower ranks. -/
def modify (rank : Nat) : Phase → Option Phase
  | .passed r => if r < rank then some (.passed rank) else none
  | .returned r => if r < rank then some (.returned rank) else none
  | .closed | .matched => none

/-- The phase after one more keyword. -/
def next (p : Phase) : Keyword → Option Phase
  | .matching | .optionalMatching => p.start .matched
  | .projecting => p.start (.passed 0)
  | .returning => p.start (.returned 0)
  | .unwind | .create | .merge | .set | .delete | .detachDelete => p.start .closed
  | .filter => p.filter
  | .orderBy => p.modify 1
  | .skip => p.modify 2
  | .limit => p.modify 3

def run (p : Phase) (ks : List Keyword) : Option Phase := ks.foldlM next p

@[simp] theorem run_nil (p : Phase) : p.run [] = some p := rfl

@[simp] theorem run_cons (p : Phase) (k : Keyword) (ks : List Keyword) :
    p.run (k :: ks) = (p.next k).bind (·.run ks) := List.foldlM_cons

theorem run_append (p : Phase) (ks ls : List Keyword) :
    p.run (ks ++ ls) = (p.run ks).bind (·.run ls) := List.foldlM_append

theorem run_snoc {p q : Phase} {ks : List Keyword} {k : Keyword} :
    p.run (ks ++ [k]) = some q ↔ ∃ r, p.run ks = some r ∧ r.next k = some q := by
  simp [run_append, Option.bind_eq_some_iff]

theorem start_of_isOpen {p : Phase} (h : p.isOpen = true) (q : Phase) : p.start q = some q :=
  if_pos h

theorem start_eq_some {p q q' : Phase} (h : p.start q' = some q) : p.isOpen = true ∧ q' = q := by
  unfold start at h
  split at h
  next hp => exact ⟨hp, Option.some.inj h⟩
  · simp at h

theorem modify_eq_some {p q : Phase} {rank : Nat} (h : p.modify rank = some q) :
    ∃ r < rank, (p = .passed r ∧ q = .passed rank) ∨ (p = .returned r ∧ q = .returned rank) := by
  cases p with
  | closed | matched => simp [modify] at h
  | passed r | returned r =>
      simp only [modify] at h
      split at h
      next hr =>
          obtain rfl := Option.some.inj h
          exact ⟨r, hr, by simp⟩
      · simp at h

end Phase

/-! ## Modifiers

A projection with modifiers up to a rank takes those of higher ranks. So the words of modifiers
are the sublists of the three, which is a finite matter. -/

theorem mem_optional {k : Keyword} {ks : List Keyword} :
    ks ∈ (optional k).matches' ↔ ks = [] ∨ ks = [k] := by
  rw [optional, RegularExpression.matches'_add, Language.mem_add]
  rfl

/-- The modifiers of a projection are some of the three, in their order. -/
theorem mem_modifiers {ms : List Keyword} :
    ms ∈ modifiers.matches' ↔ ms ∈ [Keyword.orderBy, .skip, .limit].sublists := by
  constructor
  · intro h
    simp only [modifiers, RegularExpression.matches'_mul, Language.mem_mul, mem_optional] at h
    obtain ⟨_, ⟨os, hos, ss, hss, rfl⟩, ls, hls, rfl⟩ := h
    rcases hos with rfl | rfl <;> rcases hss with rfl | rfl <;> rcases hls with rfl | rfl <;> decide
  · intro h
    have hmatch : ∀ ms ∈ [Keyword.orderBy, .skip, .limit].sublists, modifiers.rmatch ms = true := by
      decide
    exact (RegularExpression.rmatch_iff_matches' _ _).mp (hmatch ms h)

/-- The rank of the last of some modifiers. -/
def lastRank (ms : List Keyword) : Nat := (ms.getLast?.map Keyword.rank).getD 0

/-- Modifiers lead from one rank to the next. -/
theorem run_modifiers {ms : List Keyword} (h : ms ∈ modifiers.matches') :
    (Phase.passed 0).run ms = some (.passed (lastRank ms)) ∧
      (Phase.returned 0).run ms = some (.returned (lastRank ms)) := by
  have hrun : ∀ ms ∈ [Keyword.orderBy, .skip, .limit].sublists,
      (Phase.passed 0).run ms = some (.passed (lastRank ms)) ∧
        (Phase.returned 0).run ms = some (.returned (lastRank ms)) := by
    decide
  exact hrun ms (mem_modifiers.mp h)

/-- A modifier may follow modifiers whose last one has a lower rank. -/
theorem snoc_mem_modifiers {ms : List Keyword} {k : Keyword} (h : ms ∈ modifiers.matches')
    (hk : lastRank ms < k.rank) :
    ms ++ [k] ∈ modifiers.matches' ∧ lastRank (ms ++ [k]) = k.rank := by
  have hsnoc : ∀ k ∈ [Keyword.orderBy, .skip, .limit],
      ∀ ms ∈ [Keyword.orderBy, .skip, .limit].sublists, lastRank ms < k.rank →
        ms ++ [k] ∈ [Keyword.orderBy, .skip, .limit].sublists := by
    decide
  have hmem : k ∈ [Keyword.orderBy, .skip, .limit] := by
    cases k <;> first | decide | exact absurd hk (Nat.not_lt_zero _)
  refine ⟨mem_modifiers.mpr (hsnoc k hmem ms (mem_modifiers.mp h) hk), ?_⟩
  simp [lastRank]

/-! ## The words of the language have a phase

By the structure of the regular expression: a word is a list of parts and perhaps a last one, and
each of them leads from an open phase to a phase. -/

theorem mem_matching {ks : List Keyword} :
    ks ∈ matching.matches' ↔
      ∃ k ∈ [Keyword.matching, .optionalMatching], ks = [k] ∨ ks = [k, .filter] := by
  constructor
  · intro h
    simp only [matching, RegularExpression.matches'_mul, Language.mem_mul, mem_optional] at h
    obtain ⟨as, has, fs, hfs, rfl⟩ := h
    rcases has with rfl | rfl <;> rcases hfs with rfl | rfl <;> simp
  · have hmatch : ∀ k ∈ [Keyword.matching, .optionalMatching],
        matching.rmatch [k] = true ∧ matching.rmatch [k, .filter] = true := by
      decide
    rintro ⟨k, hk, rfl | rfl⟩
    · exact (RegularExpression.rmatch_iff_matches' _ _).mp (hmatch k hk).1
    · exact (RegularExpression.rmatch_iff_matches' _ _).mp (hmatch k hk).2

theorem mem_single {ks : List Keyword} :
    ks ∈ single.matches' ↔
      ∃ k ∈ [Keyword.unwind, .create, .merge, .set, .delete, .detachDelete], ks = [k] := by
  constructor
  · intro h
    simp only [single, RegularExpression.matches'_add, Language.mem_add,
      RegularExpression.matches'_char] at h
    rcases h with ((((h | h) | h) | h) | h) | h <;> exact ⟨_, by simp, h⟩
  · have hmatch : ∀ k ∈ [Keyword.unwind, .create, .merge, .set, .delete, .detachDelete],
        single.rmatch [k] = true := by
      decide
    rintro ⟨k, hk, rfl⟩
    exact (RegularExpression.rmatch_iff_matches' _ _).mp (hmatch k hk)

theorem mem_passing {ks : List Keyword} :
    ks ∈ passing.matches' ↔ ∃ ms ∈ modifiers.matches',
      ks = .projecting :: ms ∨ ks = .projecting :: (ms ++ [.filter]) := by
  simp only [passing, RegularExpression.matches'_mul, Language.mem_mul, mem_optional]
  constructor
  · rintro ⟨_, ⟨ps, rfl, ms, hms, rfl⟩, fs, hfs, rfl⟩
    refine ⟨ms, hms, ?_⟩
    rcases hfs with rfl | rfl
    · exact Or.inl (List.append_nil _)
    · exact Or.inr rfl
  · rintro ⟨ms, hms, hks⟩
    refine ⟨.projecting :: ms, ⟨[.projecting], rfl, ms, hms, rfl⟩, ?_⟩
    rcases hks with rfl | rfl
    · exact ⟨[], Or.inl rfl, List.append_nil _⟩
    · exact ⟨[.filter], Or.inr rfl, rfl⟩

/-- A part leads from an open phase to an open one. -/
theorem run_part {p : Phase} {ks : List Keyword} (hp : p.isOpen = true) (h : ks ∈ part.matches') :
    ∃ q, p.run ks = some q ∧ q.isOpen = true := by
  have hstart := Phase.start_of_isOpen hp
  rw [part, RegularExpression.matches'_add, RegularExpression.matches'_add, Language.mem_add,
    Language.mem_add] at h
  -- a match, a clause by itself, or a projection that is passed on
  rcases h with (h | h) | h
  · obtain ⟨k, hk, hks⟩ := mem_matching.mp h
    have hnext : p.next k = some .matched := by
      simp only [List.mem_cons, List.not_mem_nil, or_false] at hk
      rcases hk with rfl | rfl <;> exact hstart _
    rcases hks with rfl | rfl
    · exact ⟨.matched, by simp [hnext], rfl⟩
    · refine ⟨.closed, ?_, rfl⟩
      rw [Phase.run_cons, hnext]
      rfl
  · obtain ⟨k, hk, rfl⟩ := mem_single.mp h
    have hnext : p.next k = some .closed := by
      simp only [List.mem_cons, List.not_mem_nil, or_false] at hk
      rcases hk with rfl | rfl | rfl | rfl | rfl | rfl <;> exact hstart _
    exact ⟨.closed, by simp [hnext], rfl⟩
  · obtain ⟨ms, hms, hks⟩ := mem_passing.mp h
    have hnext : p.next .projecting = some (.passed 0) := hstart _
    have hrun := (run_modifiers hms).1
    rcases hks with rfl | rfl
    · exact ⟨_, by rw [Phase.run_cons, hnext, Option.bind_some, hrun], rfl⟩
    · refine ⟨.closed, ?_, rfl⟩
      rw [Phase.run_cons, hnext, Option.bind_some, Phase.run_append, hrun]
      rfl

theorem run_parts {p : Phase} {kss : List (List Keyword)} (hp : p.isOpen = true)
    (h : ∀ ks ∈ kss, ks ∈ part.matches') :
    ∃ q, p.run kss.flatten = some q ∧ q.isOpen = true := by
  induction kss generalizing p with
  | nil => exact ⟨p, rfl, hp⟩
  | cons ks kss ih =>
      obtain ⟨hks, hkss⟩ := List.forall_mem_cons.mp h
      obtain ⟨q, hq, hopen⟩ := run_part hp hks
      obtain ⟨r, hr, hopen'⟩ := ih hopen hkss
      exact ⟨r, by rw [List.flatten_cons, Phase.run_append, hq, Option.bind_some, hr], hopen'⟩

/-- The words of the language have a phase. -/
theorem exists_run_of_mem {ks : List Keyword} (h : ks ∈ statement.matches') :
    ∃ p, Phase.closed.run ks = some p := by
  rw [statement, RegularExpression.matches'_mul, Language.mem_mul] at h
  obtain ⟨done, hdone, rs, hrs, rfl⟩ := h
  obtain ⟨kss, rfl, hkss⟩ := Language.mem_kstar.mp hdone
  obtain ⟨p, hp, hopen⟩ := run_parts (p := .closed) rfl hkss
  rw [Phase.run_append, hp, Option.bind_some]
  rcases (Language.mem_add _ _ _).mp hrs with rfl | hresult
  · exact ⟨p, rfl⟩
  · obtain ⟨_, rfl, ms, hms, rfl⟩ := Language.mem_mul.mp hresult
    have hnext : p.next .returning = some (.returned 0) := Phase.start_of_isOpen hopen _
    refine ⟨.returned (lastRank ms), ?_⟩
    rw [List.singleton_append, Phase.run_cons, hnext, Option.bind_some, (run_modifiers hms).2]

/-! ## Keywords with a phase are words of the language

The converse is an invariant of the automaton: in every phase the keywords so far are complete
parts and then what the phase describes. Each step keeps it, and in every phase it makes a word. -/

/-- Parts that are complete, and then the keywords that belong to a phase. -/
def Phase.Describes (p : Phase) (ks : List Keyword) : Prop :=
  ∃ done ∈ part.star.matches', ∃ rest, ks = done ++ rest ∧
    match p with
    | .closed => rest = []
    | .matched => ∃ k ∈ [Keyword.matching, .optionalMatching], rest = [k]
    | .passed r => ∃ ms ∈ modifiers.matches', lastRank ms = r ∧ rest = .projecting :: ms
    | .returned r => ∃ ms ∈ modifiers.matches', lastRank ms = r ∧ rest = .returning :: ms

theorem append_mem_star {done ks : List Keyword} (hdone : done ∈ part.star.matches')
    (hks : ks ∈ part.matches') : done ++ ks ∈ part.star.matches' := by
  have happend : done ++ ks ∈ part.matches'∗ * part.matches' := Language.append_mem_mul hdone hks
  have hle : part.matches'∗ * part.matches' ≤ part.matches'∗ := kstar_mul_le_kstar
  exact hle happend

/-- In an open phase every part is complete. -/
theorem Phase.Describes.mem_star {p : Phase} {ks : List Keyword} (h : p.Describes ks)
    (hp : p.isOpen = true) : ks ∈ part.star.matches' := by
  obtain ⟨done, hdone, rest, rfl, hrest⟩ := h
  cases p with
  | closed =>
      obtain rfl := hrest
      rwa [List.append_nil]
  | matched =>
      obtain ⟨k, hk, rfl⟩ := hrest
      exact append_mem_star hdone (Or.inl (Or.inl (mem_matching.mpr ⟨k, hk, Or.inl rfl⟩)))
  | passed r =>
      obtain ⟨ms, hms, -, rfl⟩ := hrest
      exact append_mem_star hdone (Or.inr (mem_passing.mpr ⟨ms, hms, Or.inl rfl⟩))
  | returned r => exact absurd hp Bool.false_ne_true

theorem Phase.Describes.mem_statement {p : Phase} {ks : List Keyword} (h : p.Describes ks) :
    ks ∈ statement.matches' := by
  rw [statement, RegularExpression.matches'_mul]
  cases hp : p.isOpen with
  | true => exact ⟨ks, h.mem_star hp, [], Or.inl rfl, List.append_nil ks⟩
  | false =>
      cases p with
      | returned r =>
          obtain ⟨done, hdone, rest, rfl, ms, hms, -, rfl⟩ := h
          exact ⟨done, hdone, _, Or.inr ⟨_, rfl, ms, hms, rfl⟩, rfl⟩
      | _ => simp [Phase.isOpen] at hp

/-- A part that is a single clause is complete. -/
theorem Phase.Describes.single {p : Phase} {ks : List Keyword} {k : Keyword} (h : p.Describes ks)
    (hp : p.isOpen = true)
    (hk : k ∈ [Keyword.unwind, .create, .merge, .set, .delete, .detachDelete]) :
    Phase.closed.Describes (ks ++ [k]) := by
  have hpart : [k] ∈ part.matches' := Or.inl (Or.inr (mem_single.mpr ⟨k, hk, rfl⟩))
  exact ⟨_, append_mem_star (h.mem_star hp) hpart, [], (List.append_nil _).symm, rfl⟩

/-- A condition completes the part before it. -/
theorem Phase.Describes.filter {p q : Phase} {ks : List Keyword} (h : p.Describes ks)
    (hnext : p.filter = some q) : q.Describes (ks ++ [.filter]) := by
  obtain ⟨done, hdone, rest, rfl, hrest⟩ := h
  have hcomplete : rest ++ [.filter] ∈ part.matches' → Phase.closed.Describes
      (done ++ rest ++ [.filter]) := by
    intro hpart
    refine ⟨_, append_mem_star hdone hpart, [], ?_, rfl⟩
    rw [List.append_nil, List.append_assoc]
  cases p with
  | closed | returned r => simp [Phase.filter] at hnext
  | matched =>
      obtain rfl := Option.some.inj hnext
      obtain ⟨k, hk, rfl⟩ := hrest
      exact hcomplete (Or.inl (Or.inl (mem_matching.mpr ⟨k, hk, Or.inr rfl⟩)))
  | passed r =>
      obtain rfl := Option.some.inj hnext
      obtain ⟨ms, hms, -, rfl⟩ := hrest
      exact hcomplete (Or.inr (mem_passing.mpr ⟨ms, hms, Or.inr rfl⟩))

/-- A modifier follows those of lower ranks. -/
theorem Phase.Describes.modify {p q : Phase} {ks : List Keyword} {k : Keyword}
    (h : p.Describes ks) (hnext : p.modify k.rank = some q) : q.Describes (ks ++ [k]) := by
  obtain ⟨done, hdone, rest, rfl, hrest⟩ := h
  obtain ⟨r, hr, ⟨rfl, rfl⟩ | ⟨rfl, rfl⟩⟩ := modify_eq_some hnext
  all_goals
    obtain ⟨ms, hms, rfl, rfl⟩ := hrest
    obtain ⟨hmem, hlast⟩ := snoc_mem_modifiers hms hr
    exact ⟨done, hdone, _, List.append_assoc .., ms ++ [k], hmem, hlast, rfl⟩

/-- One more keyword leads from the keywords of a phase to those of the next. -/
theorem Phase.Describes.next {p q : Phase} {ks : List Keyword} {k : Keyword} (h : p.Describes ks)
    (hnext : p.next k = some q) : q.Describes (ks ++ [k]) := by
  have hnil : [] ∈ modifiers.matches' := mem_modifiers.mpr (by decide)
  cases k with
  | matching | optionalMatching =>
      obtain ⟨hp, rfl⟩ := start_eq_some hnext
      exact ⟨ks, h.mem_star hp, _, rfl, _, by decide, rfl⟩
  | projecting | returning =>
      obtain ⟨hp, rfl⟩ := start_eq_some hnext
      exact ⟨ks, h.mem_star hp, _, rfl, [], hnil, rfl, rfl⟩
  | unwind | create | merge | set | delete | detachDelete =>
      obtain ⟨hp, rfl⟩ := start_eq_some hnext
      exact h.single hp (by decide)
  | filter => exact h.filter hnext
  | orderBy | skip | limit => exact h.modify hnext

/-- **The clause order, keyword by keyword.** The words of the language are those that can be run
through from phase to phase. -/
theorem mem_statement_iff {ks : List Keyword} :
    ks ∈ statement.matches' ↔ ∃ p, Phase.closed.run ks = some p := by
  refine ⟨exists_run_of_mem, ?_⟩
  rintro ⟨p, hp⟩
  suffices h : p.Describes ks from h.mem_statement
  induction ks using List.reverseRecOn generalizing p with
  | nil =>
      obtain rfl := Option.some.inj hp
      exact ⟨[], Language.nil_mem_kstar _, [], rfl, rfl⟩
  | append_singleton ks k ih =>
      obtain ⟨q, hq, hnext⟩ := Phase.run_snoc.mp hp
      exact (ih q hq).next hnext

end ClauseOrder

end GraphQuery
