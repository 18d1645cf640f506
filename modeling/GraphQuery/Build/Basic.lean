import GraphQuery.Draft.Statement

set_option autoImplicit false

/-! # Builds

A build turns a statement into a query: its text, and the values of the parameters that the text
mentions. It starts with a scope of its own and keeps a log of what it does.

A fault of the text ends a build before any parameter is converted: the values are looked at when
the whole text is there. The log is kept in either case, up to the place where the build ended,
so a caller can see which generated names were passed over on the way.
-/

namespace GraphQuery

/-- A query text with the parameters it mentions, in the order of first mention. -/
structure Query where
  text : String
  params : List (String × Json)

/-- A line of the log of a build. -/
inductive BuildEvent where
  | started (clauses : Nat)
  | passedOver (name : String)
  | finished (vars params bytes : Nat)
deriving DecidableEq

inductive LogLevel where
  | debug
  | warn
deriving DecidableEq

/-- The level of a line. A generated name that is bound already is worth a warning. -/
def BuildEvent.level : BuildEvent → LogLevel
  | .passedOver _ => .warn
  | _ => .debug

/-- The wording of a line. -/
def BuildEvent.message : BuildEvent → String
  | .started clauses => "Building statement with " ++ toString clauses ++ " clause(s)"
  | .passedOver name => "Generated name '" ++ name ++ "' is already bound, skipping"
  | .finished vars params bytes =>
      "Built statement: " ++ toString vars ++ " variable(s), " ++ toString params ++
        " parameter(s), " ++ toString bytes ++ " bytes of query text"

/-- A build: its result and its log. -/
structure Build where
  result : Except RenderError Query
  log : List BuildEvent

namespace Statement

/-- The text of a statement in a scope, with the scope after it. -/
def render (st : Statement) (s : Scope) : Except RenderError String × Scope :=
  s.render (st.draft s.settings.separator)

/-- The build of a statement. The values of parameters are looked at when the whole text is
there. -/
def build (settings : Settings) (st : Statement) : Build :=
  let (text, scope) := st.render (Scope.new settings)
  let log := .started st.clauses.length :: scope.passedOver.map .passedOver
  match text with
  | .error e => ⟨.error e, log⟩
  | .ok text =>
      match scope.values with
      | .error e => ⟨.error (.unsupported e), log⟩
      | .ok params =>
          ⟨.ok ⟨text, params⟩,
            log ++ [.finished scope.vars.entries.length params.length text.utf8ByteSize]⟩

end Statement

end GraphQuery
