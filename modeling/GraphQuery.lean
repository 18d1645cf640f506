import GraphQuery.Build.Basic
import GraphQuery.Error.Basic
import GraphQuery.Expr.Function
import GraphQuery.Proofs.Draft.Filling
import GraphQuery.Proofs.Expr.Call
import GraphQuery.Proofs.Expr.Induction
import GraphQuery.Proofs.Json.RoundTrip
import GraphQuery.Proofs.Name.Reading
import GraphQuery.Proofs.Name.Writing
import GraphQuery.Proofs.Number.Literal
import GraphQuery.Proofs.Number.Numeral
import GraphQuery.Proofs.Number.Shortest
import GraphQuery.Proofs.Parser.Needed
import GraphQuery.Proofs.Parser.StatementRoundTrip
import GraphQuery.Proofs.Parser.Value
import GraphQuery.Proofs.Pattern.Elements
import GraphQuery.Proofs.Pattern.Entity
import GraphQuery.Proofs.Pattern.Reversal
import GraphQuery.Proofs.Print.Conflict
import GraphQuery.Proofs.Print.Extension
import GraphQuery.Proofs.Print.Lines
import GraphQuery.Proofs.Print.Renaming
import GraphQuery.Proofs.Print.Stability
import GraphQuery.Proofs.Print.Unsupported
import GraphQuery.Proofs.Settings.Loading
import GraphQuery.Proofs.Statement.Condition
import GraphQuery.Proofs.Statement.Runs
import GraphQuery.Proofs.Text.Reading
import GraphQuery.Proofs.Text.Scanning
import GraphQuery.Proofs.Token.Basic
import GraphQuery.Proofs.Token.Keyword
import GraphQuery.Proofs.Token.Statement
import GraphQuery.Settings.Loading
import GraphQuery.Value.Basic
import GraphQuery.Proofs.Scope.Containers
import GraphQuery.Proofs.Statement.Constructible
