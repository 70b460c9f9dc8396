import ScopeActions.Json.Parser
import ScopeActions.Libraries
import ScopeActions.Regex.Match
import ScopeActions.Regex.Parser
import ScopeActions.Toml.Parser

/-!
# Bundled libraries

The readers and engines that the program comes with.
-/

namespace ScopeActions

/-- The readers and engines of the program. To match a pattern does not fail with these. -/
def Libraries.bundled : Libraries where
  json := Json.parse?
  tokens text := (Json.parse? text).bind Token.listOfJson?
  toml := Toml.parse?
  patterns pattern := (Regex.compile? .plain pattern).map Regex.isMatch
  firstLines pattern := (Regex.compile? .extended pattern).map fun r line => some (r.isMatch line)

end ScopeActions
