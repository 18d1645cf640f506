import GraphQuery.Proofs.Statement.Order
import GraphQuery.Statement.Basic

set_option autoImplicit false

/-! # Adding a clause

What `Statement.push` does, said once: a clause joins one of its kind at the end of the statement,
or it is added if it may follow there, or it is refused (`Statement.push_eq`). What may follow is
decided by looking back at the last keyword, at the keyword that modifiers at the end belong to, and
for a `RETURN`. In a statement whose keywords have a phase all of this is in the phase
(`ClauseOrder.Phase.Ends`).
-/

namespace GraphQuery

/-! ## Looking back

A push does not know the phase. It sees the last keyword and the keyword that modifiers at the
end belong to, and the phase tells what these two can be. Whether a keyword may follow can be
decided by either. -/

def Statement.keywords (s : Statement) : List Keyword := s.clauses.map Clause.keyword

namespace ClauseOrder

/-- The last keyword that is no modifier: the one that modifiers at the end belong to. -/
def modified? (ks : List Keyword) : Option Keyword := ks.reverse.find? fun k => !k.isModifier

/-- Whether a keyword may stand behind the last one, given also the keyword that modifiers at the
end belong to. -/
def follows (last? modified? : Option Keyword) : Keyword → Bool
  | .filter =>
      last? ∈ [some .matching, some .optionalMatching, some .projecting] ||
        last?.any Keyword.isModifier && modified? == some .projecting
  | .orderBy => last? ∈ [some .returning, some .projecting]
  | .skip => last? ∈ [some .returning, some .projecting, some .orderBy]
  | .limit => last? ∈ [some .returning, some .projecting, some .orderBy, some .skip]
  | _ => true

/-- Whether a keyword right behind itself is written once. -/
def repeats (k : Keyword) : Bool := k == .filter || k.isModifier

/-- The keywords with one more, which is left out if it only repeats the last one. -/
def joined (ks : List Keyword) (k : Keyword) : List Keyword :=
  if repeats k && ks.getLast? == some k then ks else ks ++ [k]

namespace Phase

/-- The last keyword where modifiers up to a rank stand behind a keyword. -/
def lastOf (start : Keyword) : Nat → Keyword
  | 0 => start
  | 1 => .orderBy
  | 2 => .skip
  | _ => .limit

/-- What may be the last keyword in a phase. -/
def lasts : Phase → List (Option Keyword)
  | .closed =>
      [none, some .filter, some .unwind, some .create, some .merge, some .set, some .delete,
        some .detachDelete]
  | .matched => [some .matching, some .optionalMatching]
  | .passed r => [some (lastOf .projecting r)]
  | .returned r => [some (lastOf .returning r)]

/-- The keyword that modifiers belong to in a phase. -/
def modified? : Phase → Option Keyword
  | .closed | .matched => none
  | .passed _ => some .projecting
  | .returned _ => some .returning

end Phase

/-- What is seen of a phase by looking back from the end of the keywords. -/
structure Phase.Ends (p : Phase) (ks : List Keyword) : Prop where
  last : ks.getLast? ∈ p.lasts
  modified : ∀ k ∈ p.modified?, ClauseOrder.modified? ks = some k
  returning : Keyword.returning ∈ ks ↔ p.isOpen = false

/-- A keyword that is written once does not stand behind itself. -/
theorem follows_self {k : Keyword} (h : repeats k = true) (modified? : Option Keyword) :
    follows (some k) modified? k = false := by
  cases k with
  | filter | orderBy | skip | limit => rfl
  | _ => exact absurd h (by decide)

theorem modified?_snoc (ks : List Keyword) (k : Keyword) :
    modified? (ks ++ [k]) = if k.isModifier then modified? ks else some k := by
  cases h : k.isModifier <;> simp [modified?, h]

/-- Looking back from one more keyword shows the next phase. -/
theorem Phase.Ends.next {p q : Phase} {ks : List Keyword} {k : Keyword} (h : p.Ends ks)
    (hnext : p.next k = some q) : q.Ends (ks ++ [k]) := by
  obtain ⟨-, hmodified, hreturning⟩ := h
  have hlast : (ks ++ [k]).getLast? = some k := List.getLast?_concat
  cases k with
  | orderBy | skip | limit =>
      -- the modifiers still belong to the same keyword
      obtain ⟨r, -, ⟨rfl, rfl⟩ | ⟨rfl, rfl⟩⟩ := modify_eq_some hnext
      all_goals
        refine ⟨hlast ▸ List.mem_singleton_self _, fun k hk => ?_, ?_⟩
        · rw [modified?_snoc]
          exact hmodified k hk
        · simpa [Phase.isOpen] using hreturning
  | filter =>
      cases p with
      | closed | returned r => simp [Phase.next, Phase.filter] at hnext
      | matched | passed r =>
          obtain rfl := Option.some.inj hnext
          refine ⟨hlast ▸ by decide, by simp [Phase.modified?], ?_⟩
          simpa [Phase.isOpen] using hreturning
  | matching | optionalMatching | projecting | returning | unwind | create | merge | set | delete
  | detachDelete =>
      obtain ⟨hp, rfl⟩ := start_eq_some hnext
      refine ⟨hlast ▸ by decide, ?_, ?_⟩
      · rw [modified?_snoc]
        simp [Phase.modified?, Keyword.isModifier, Keyword.rank]
      · rw [List.mem_append, hreturning, hp]
        simp [Phase.isOpen]

theorem ends_of_run {p : Phase} {ks : List Keyword} (h : Phase.closed.run ks = some p) :
    p.Ends ks := by
  induction ks using List.reverseRecOn generalizing p with
  | nil =>
      obtain rfl := Option.some.inj h
      exact ⟨by decide, by simp [Phase.modified?], by simp [Phase.isOpen]⟩
  | append_singleton ks k ih =>
      obtain ⟨q, hq, hnext⟩ := Phase.run_snoc.mp h
      exact (ih hq).next hnext

/-- Behind a `RETURN` no condition can be repeated. -/
theorem Phase.Ends.isModifier_of_repeats {p : Phase} {ks : List Keyword} {k : Keyword}
    (h : p.Ends ks) (hk : repeats k = true) (hlast : ks.getLast? = some k)
    (hreturning : Keyword.returning ∈ ks) : k.isModifier = true := by
  have hmem := h.last
  have hclosed := h.returning.mp hreturning
  rw [hlast] at hmem
  cases p with
  | returned r =>
      have heq : k = Phase.lastOf .returning r := Option.some.inj (List.mem_singleton.mp hmem)
      subst heq
      cases r with
      | zero => exact absurd hk (by decide)
      | succ n => rcases n with _ | _ | n <;> rfl
  | _ => exact absurd hclosed (by simp [Phase.isOpen])

/-- **Looking back decides as the phase does** whether one more keyword may follow. -/
theorem Phase.Ends.follows_iff {p : Phase} {ks : List Keyword} (h : p.Ends ks) (k : Keyword) :
    ((Keyword.returning ∈ ks → k.isModifier = true) ∧
        follows ks.getLast? (ClauseOrder.modified? ks) k = true) ↔
      ∃ q, p.next k = some q := by
  obtain ⟨hlast, hmodified, hreturning⟩ := h
  rw [hreturning]
  generalize ks.getLast? = last? at hlast
  cases p with
  | closed =>
      -- behind none of these keywords stands a condition or a modifier
      simp only [Phase.lasts, List.mem_cons, List.not_mem_nil, or_false] at hlast
      rcases hlast with rfl | rfl | rfl | rfl | rfl | rfl | rfl | rfl <;> cases k <;>
        simp [follows, Phase.isOpen, Phase.next, Phase.start, Phase.filter, Phase.modify,
          Keyword.isModifier, Keyword.rank]
  | matched =>
      simp only [Phase.lasts, List.mem_cons, List.not_mem_nil, or_false] at hlast
      rcases hlast with rfl | rfl <;> cases k <;>
        simp [follows, Phase.isOpen, Phase.next, Phase.start, Phase.filter, Phase.modify,
          Keyword.isModifier, Keyword.rank]
  | passed r | returned r =>
      -- the last keyword tells the rank, and the modifiers before it whose they are
      rw [hmodified _ rfl]
      obtain rfl := List.mem_singleton.mp hlast
      rcases r with _ | _ | _ | n <;> cases k <;>
        simp [Phase.lastOf, follows, Phase.isOpen, Phase.next, Phase.start, Phase.filter,
          Phase.modify, Keyword.isModifier, Keyword.rank]

end ClauseOrder

/-! ## What a push does

The five functions of a push are brought into one form: refused behind a `RETURN`, joined to the
last clause, added, or refused for its place. All later results use this form only. -/

/-- What two clauses of one kind come to, the second right behind the first. -/
def Clause.joined? : Clause → Clause → Option Clause
  | .filter e, .filter e' => some (.filter (e.and e'))
  | .orderBy xs, .orderBy ys => some (.orderBy (xs.append ys))
  | .skip _, .skip count => some (.skip count)
  | .limit _, .limit count => some (.limit count)
  | _, _ => none

theorem Clause.isModifier_keyword (c : Clause) : c.keyword.isModifier = c.isModifier := by
  cases c with
  | matching optional patterns => cases optional <;> rfl
  | delete detach targets => cases detach <;> rfl
  | _ => rfl

/-- Two clauses are joined if they have the same keyword and it is one that is written once. The
outcome has that keyword too. -/
theorem Clause.joined?_eq_some {l c c' : Clause} (h : l.joined? c = some c') :
    l.keyword = c.keyword ∧ c'.keyword = c.keyword ∧ ClauseOrder.repeats c.keyword = true := by
  unfold joined? at h
  split at h
  case h_5 => simp at h
  all_goals
    obtain rfl := Option.some.inj h
    exact ⟨rfl, rfl, rfl⟩

theorem Clause.joined?_eq_none {l c : Clause} (h : ClauseOrder.repeats c.keyword = false) :
    l.joined? c = none := by
  by_contra hsome
  obtain ⟨c', hc'⟩ := Option.ne_none_iff_exists'.mp hsome
  have hrepeats := (joined?_eq_some hc').2.2
  rw [h] at hrepeats
  exact Bool.noConfusion hrepeats

theorem Clause.exists_joined? {l c : Clause} (hkeyword : l.keyword = c.keyword)
    (h : ClauseOrder.repeats c.keyword = true) : ∃ c', l.joined? c = some c' := by
  cases c with
  | filter e | orderBy xs | skip e | limit e =>
      -- the clause before has the same keyword, so it is of the same kind
      cases l <;> first | exact ⟨_, rfl⟩ | grind [keyword]
  | matching flag xs | delete flag xs => cases flag <;> exact absurd h Bool.false_ne_true
  | _ => exact absurd h Bool.false_ne_true

namespace Statement

variable {s s' : Statement} {c l : Clause}

theorem keywords_add (s : Statement) (c : Clause) :
    (s.add c).keywords = s.keywords ++ [c.keyword] :=
  List.map_append

theorem getLast?_keywords (s : Statement) : s.keywords.getLast? = s.last?.map Clause.keyword :=
  List.getLast?_map

/-- A clause with the same keyword in the place of the last one. -/
theorem keywords_replaceLast (hlast : s.last? = some l) (h : l.keyword = c.keyword) :
    (s.replaceLast c).keywords = s.keywords := by
  obtain ⟨cs, hcs⟩ := List.getLast?_eq_some_iff.mp hlast
  simp [replaceLast, keywords, hcs, h]

theorem hasReturn_iff (s : Statement) : s.hasReturn = true ↔ Keyword.returning ∈ s.keywords := by
  simp [hasReturn, keywords]

theorem modified?_eq (s : Statement) : s.modified? = ClauseOrder.modified? s.keywords := by
  rw [modified?, ClauseOrder.modified?, keywords, ← List.map_reverse, List.find?_map]
  simp only [Function.comp_def, Clause.isModifier_keyword]

/-- **What a push does.** A clause behind a `RETURN` must be a modifier. It joins a clause of its
kind at the end, or else it is added if its keyword may follow there. -/
theorem push_eq (s : Statement) (c : Clause) :
    s.push c =
      if s.hasReturn && !c.isModifier then .error (.order c.keyword (some .returning))
      else match s.last?.bind (·.joined? c) with
        | some c' => .ok (s.replaceLast c')
        | none =>
            if ClauseOrder.follows s.keywords.getLast? (ClauseOrder.modified? s.keywords) c.keyword
            then .ok (s.add c)
            else .error (s.outOfOrder c.keyword) := by
  unfold push
  by_cases hreturn : (s.hasReturn && !c.isModifier) = true
  · rw [if_pos hreturn, if_pos hreturn]
  rw [if_neg hreturn, if_neg hreturn, getLast?_keywords, ← modified?_eq]
  have hnone : ClauseOrder.repeats c.keyword = false → s.last?.bind (·.joined? c) = none :=
    fun h => Option.bind_eq_none_iff.mpr fun l _ => Clause.joined?_eq_none h
  cases c with
  | filter e | orderBy xs | skip e | limit e =>
      -- a clause that may join the last one looks at what that is
      simp only [pushFilter, pushOrderBy, pushSkip, pushLimit]
      cases s.last? with
      | none => rfl
      | some l =>
          cases l with
          | matching flag xs | delete flag xs => cases flag <;> rfl
          | _ =>
              simp [Clause.joined?, ClauseOrder.follows, Clause.keyword, Clause.isModifier,
                Keyword.isModifier, Keyword.rank]
  | matching flag xs | delete flag xs =>
      rw [hnone (by cases flag <;> rfl)]
      cases flag <;> rfl
  | projecting _ | returning _ | unwind _ _ | create _ | merge _ | set _ =>
      rw [hnone rfl]
      rfl

/-- The last clause is joined if its keyword is repeated. -/
theorem exists_joined?_iff :
    (∃ c', s.last?.bind (·.joined? c) = some c') ↔
      ClauseOrder.repeats c.keyword = true ∧ s.keywords.getLast? = some c.keyword := by
  rw [getLast?_keywords]
  constructor
  · rintro ⟨c', hc'⟩
    obtain ⟨l, hlast, hjoined⟩ := Option.bind_eq_some_iff.mp hc'
    obtain ⟨hkeyword, -, hrepeats⟩ := Clause.joined?_eq_some hjoined
    exact ⟨hrepeats, by rw [hlast, Option.map_some, hkeyword]⟩
  · rintro ⟨hrepeats, hlast⟩
    obtain ⟨l, hlast, hkeyword⟩ := Option.map_eq_some_iff.mp hlast
    obtain ⟨c', hc'⟩ := Clause.exists_joined? hkeyword hrepeats
    exact ⟨c', by rw [hlast, Option.bind_some, hc']⟩

/-- The keywords after a push: those before it and one more, unless it repeats the last one. -/
theorem keywords_push (h : s.push c = .ok s') :
    s'.keywords = ClauseOrder.joined s.keywords c.keyword := by
  rw [push_eq] at h
  have hrepeat := exists_joined?_iff (s := s) (c := c)
  split at h
  · simp at h
  split at h
  next c' hc' =>
      obtain rfl := Except.ok.inj h
      obtain ⟨l, hlast, hjoined⟩ := Option.bind_eq_some_iff.mp hc'
      obtain ⟨hkeyword, hkeyword', -⟩ := Clause.joined?_eq_some hjoined
      rw [keywords_replaceLast hlast (hkeyword.trans hkeyword'.symm), ClauseOrder.joined, if_pos]
      simpa using hrepeat.mp ⟨c', hc'⟩
  next hnone =>
      split at h
      · obtain rfl := Except.ok.inj h
        rw [keywords_add, ClauseOrder.joined, if_neg]
        rw [hnone] at hrepeat
        simpa using hrepeat
      · simp at h

/-- **A push succeeds** if it repeats the last keyword or leads from the phase of the statement to
another one. -/
theorem exists_push_iff {p : ClauseOrder.Phase}
    (hp : ClauseOrder.Phase.closed.run s.keywords = some p) :
    (∃ s', s.push c = .ok s') ↔
      (ClauseOrder.repeats c.keyword = true ∧ s.keywords.getLast? = some c.keyword) ∨
        ∃ q, p.next c.keyword = some q := by
  have hends := ClauseOrder.ends_of_run hp
  rw [push_eq]
  by_cases hreturn : (s.hasReturn && !c.isModifier) = true
  · -- neither a repeated keyword nor one that leads on is refused here
    have hrefused : Keyword.returning ∈ s.keywords ∧ c.keyword.isModifier = false := by
      simpa [hasReturn_iff, Clause.isModifier_keyword] using hreturn
    rw [if_pos hreturn]
    constructor
    · rintro ⟨s', h⟩
      simp at h
    · intro h
      have hmodifier : c.keyword.isModifier = true := by
        rcases h with ⟨hrepeats, hlast⟩ | hnext
        · exact hends.isModifier_of_repeats hrepeats hlast hrefused.1
        · exact ((hends.follows_iff _).mpr hnext).1 hrefused.1
      rw [hrefused.2] at hmodifier
      exact Bool.noConfusion hmodifier
  · have hmodifier : Keyword.returning ∈ s.keywords → c.keyword.isModifier = true := by
      simpa [hasReturn_iff, Clause.isModifier_keyword] using hreturn
    rw [if_neg hreturn, ← exists_joined?_iff, ← hends.follows_iff]
    cases s.last?.bind (·.joined? c) with
    | some c' => simp
    | none =>
        by_cases hfollows : ClauseOrder.follows s.keywords.getLast?
            (ClauseOrder.modified? s.keywords) c.keyword = true
        · simpa [hfollows] using hmodifier
        · simp [hfollows]

end Statement

end GraphQuery
