import ScopeActions.Assoc
import ScopeActions.Document
import ScopeActions.Files

/-!
# Documents of a run

The documents that have been loaded, by name. A document that is loaded again replaces the one before.
-/

namespace ScopeActions

/-- Reads a document from a file. -/
def Document.load (fs : FileSystem) (path : String) : Except IoError Document :=
  (fs.readText path).map (.ofFile path)

/-- Documents by name. -/
abbrev Documents := Assoc Document

namespace Documents

/-- Adds a document under its name. -/
def add (ds : Documents) (d : Document) : Documents :=
  Assoc.put ds d.name d

/-- Loads a document from a file. -/
def loadFile (ds : Documents) (fs : FileSystem) (path : String) : Except IoError Document × Documents :=
  match Document.load fs path with
  | .error e => (.error e, ds)
  | .ok d => (.ok d, ds.add d)

/-- Makes a document of a text. -/
def loadText (ds : Documents) (name text : String) : Document × Documents :=
  let d := Document.ofText name text
  (d, ds.add d)

end Documents

end ScopeActions
