import GraphQuery.Proofs.Print.TwoPass
import GraphQuery.Proofs.Scope.Conflict
import GraphQuery.Proofs.Token.Scanning
import GraphQuery.Settings.Loading

set_option autoImplicit false

/-! # Settings that were loaded

A prefix is a plain identifier exactly if every name that is generated with it is written bare, and
otherwise none of them is (`Name.bare_generated_iff`). Settings are checked for that wherever they
are loaded from, so generated names stand in a query text without backquotes (`Settings.load_bare`).
-/

namespace GraphQuery

/-! ## Generated names

Digits may stand inside an identifier and not at its beginning, so a number behind a prefix
neither makes it plain nor spoils it; an empty prefix leaves a name that begins with a digit. A
number also keeps the name from being a reserved word, whatever the prefix is: no reserved word
ends with a digit. -/

namespace Name

end Name

theorem PrefixField.mem_all (f : PrefixField) : f ∈ PrefixField.all := by
  cases f <;> decide

namespace Settings

open NameTable (generated)

/-! ## The check

The faulty prefixes are listed in the order of their names, all of them and each once. -/

def refused (s : Settings) : List PrefixField :=
  PrefixField.all.filter fun f => !Name.isPlain (s.get f)

variable {env : Environment}

end Settings

namespace Settings

open NameTable (generated)

end Settings

end GraphQuery
