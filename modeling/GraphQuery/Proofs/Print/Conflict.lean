import GraphQuery.Proofs.Print.Failure

set_option autoImplicit false

/-! # Naming conflicts

A build names what it prints as it goes, so an explicit name does not keep a generated one from
being given before. Where no explicit name is given to two variables or to two parameters, this is
the only way to a conflict (`Statement.overtaken_of_conflict`), and there is such a statement
(`Statement.conflict_crossing`).

The condition that is supposed is about explicit names alone. A statement in which it fails is
never built, whatever the settings are, since of two things with one explicit name the second one
is refused.
-/

namespace GraphQuery.Statement

open Scope (Overtaken)

variable {settings : Settings} {st : Statement}

/-- **Where a conflict comes from.** If different variables have different explicit names and so
have different parameters, then a build reports a conflict only where an explicit name is reached
for the first time after it was given, as a generated name, to another variable or parameter that
has no explicit name. -/
theorem overtaken_of_conflict (hapart : Mention.Apart st.mentions) {space : NameSpace}
    {name : String} (h : (st.build settings).result = .error (.namingConflict space name)) :
    ∃ before m after, st.mentions = before ++ m :: after ∧ m.space = space ∧
      Overtaken settings before m name := by
  obtain ⟨s', hrender⟩ | ⟨text, s', u, -, -, hvalue⟩ := build_eq_error_iff.mp h
  · rcases Scope.render_error_at hrender with
      hfault | ⟨before, m, after, t, hmentions, hbefore, hname | ⟨role, hempty⟩⟩
    · obtain ⟨role, hempty⟩ | ⟨kind, hliteral⟩ := fault_of_mem_draft hfault
      · simp at hempty
      · simp at hliteral
    · rw [mentions_draft] at hmentions
      have hfirst : Mention.Apart (before ++ [m]) := by
        have hsub : before ++ [m] ⊆ st.mentions := by simp [hmentions]
        exact fun m' hm' m'' hm'' => hapart m' (hsub hm') m'' (hsub hm'')
      obtain ⟨name', he, hovertaken⟩ :=
        Scope.overtaken_of_refused hbefore (Prod.ext hname rfl) hfirst
      obtain ⟨rfl, rfl⟩ := RenderError.namingConflict.inj he
      exact ⟨before, m, after, hmentions, rfl, hovertaken⟩
    · simp at hempty
  · simp at hvalue

/-- Two nodes, of which the second one has for its explicit name the one that the first one gets. -/
def crossing : Statement :=
  ⟨[.matching false (.single (.ofNode (.blank 0))),
    .matching false (.single (.ofNode ((Node.blank 1).named "n1")))]⟩

theorem apart_crossing : Mention.Apart crossing.mentions := by
  have hnamed : ∀ m ∈ crossing.mentions, ∀ name, m.explicit? = some name →
      m = .var ⟨1, .node, some "n1"⟩ := by
    have hmentions : crossing.mentions = [.var ⟨0, .node, none⟩, .var ⟨1, .node, some "n1"⟩] := rfl
    simp [hmentions, Mention.explicit?]
  intro m hm m' hm' _ name hname hname'
  rw [hnamed m hm name hname, hnamed m' hm' name hname']

theorem conflict_crossing :
    Mention.Apart crossing.mentions ∧
      (crossing.build .standard).result = .error (.namingConflict .vars "n1") :=
  ⟨apart_crossing, rfl⟩

theorem overtaken_of_conflict_crossing :
    Mention.Apart crossing.mentions ∧
      ∃ before m after, crossing.mentions = before ++ m :: after ∧ m.space = .vars ∧
        Overtaken .standard before m "n1" :=
  ⟨apart_crossing, overtaken_of_conflict apart_crossing rfl⟩

end GraphQuery.Statement
