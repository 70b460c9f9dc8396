import ScopeActions.Text.Split

/-!
# Documents

A document is a name and a list of lines. Lines are what stands between line feeds, so a text that
ends in a line feed has an empty last line.
-/

namespace ScopeActions

/-- A text split into lines, ready to be tokenized from front to back. -/
structure Document where
  name : String := ""
  /-- The file it was read from. -/
  path : Option String := none
  /-- The lines, without line feeds. -/
  lines : List String := []
  deriving DecidableEq, Repr

namespace Document

/-- A document in memory. -/
def ofText (name text : String) : Document :=
  { name, lines := Text.split '\n' text }

/-- A document read from a file, which also names it. -/
def ofFile (path text : String) : Document :=
  { ofText path text with path := some path }

/-- The first line, or nothing. -/
def firstLine (d : Document) : String :=
  d.lines.headD ""

/-- The path that file types are compared with: the file if there is one, else the name. -/
def pathToMatch (d : Document) : String :=
  d.path.getD d.name

end Document

end ScopeActions
