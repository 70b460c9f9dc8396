import ScopeActions.Config.Basic
import ScopeActions.Grammar.Loaded
import ScopeActions.Replay

/-!
# Libraries

The readers of texts and the engines for patterns are not part of the program. It runs with any, and
decides for itself what becomes of the values that they give.
-/

namespace ScopeActions

/-- What a run takes from libraries. -/
structure Libraries where
  /-- Reads the JSON texts of grammars. -/
  json : JsonReader
  /-- Reads the records of token streams. -/
  tokens : TokenReader
  /-- Reads the texts of configurations. -/
  toml : TomlReader
  /-- Compiles the patterns of trace filters. -/
  patterns : PatternEngine
  /-- Compiles the patterns that grammars have for first lines. -/
  firstLines : LineEngine

end ScopeActions
