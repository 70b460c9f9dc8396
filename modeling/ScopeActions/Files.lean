import ScopeActions.Text.Split

/-!
# Files

A file system is seen as a function from path texts to what opening them finds. `FileTree` is one whose
contents are given: a tree of files below a working directory.
-/

namespace ScopeActions

/-- Why a file could not be read. -/
inductive IoError where
  | notFound
  | notDirectory
  | isDirectory
  | nameTooLong
  | nulInPath
  | invalidText
  /-- What the system says of any other failure. -/
  | other (message : String)
  deriving DecidableEq, Repr

/-- The wording of a file error. -/
def IoError.message : IoError → String
  | .notFound => "No such file or directory (os error 2)"
  | .notDirectory => "Not a directory (os error 20)"
  | .isDirectory => "Is a directory (os error 21)"
  | .nameTooLong => "File name too long (os error 36)"
  | .nulInPath => "file name contained an unexpected NUL byte"
  | .invalidText => "stream did not contain valid UTF-8"
  | .other message => message

/-- What a path names. -/
inductive FileNode where
  | file (bytes : ByteArray)
  | directory

/-- What opening each path finds. -/
abbrev FileSystem := String → Except IoError FileNode

namespace FileSystem

/-- The bytes of a file. A directory can be opened but not read. -/
def readBytes (fs : FileSystem) (path : String) : Except IoError ByteArray :=
  match fs path with
  | .error e => .error e
  | .ok .directory => .error .isDirectory
  | .ok (.file bytes) => .ok bytes

/-- The text of a file. -/
def readText (fs : FileSystem) (path : String) : Except IoError String :=
  match fs.readBytes path with
  | .error e => .error e
  | .ok bytes =>
    match String.fromUTF8? bytes with
    | none => .error .invalidText
    | some text => .ok text

/-- The path names a file. -/
def isFile (fs : FileSystem) (path : String) : Bool :=
  match fs path with
  | .ok (.file _) => true
  | _ => false

/-- What opening the given paths has found; no other paths are opened. -/
def ofOpened (opened : List (String × Except IoError FileNode)) : FileSystem := fun path =>
  match opened.find? (·.1 == path) with
  | some (_, found) => found
  | none => .error .notFound

end FileSystem

/-- Files and directories by the names on the way to them from the working directory. Directories on
the way to another entry need not be listed. -/
structure FileTree where
  entries : List (List String × FileNode)

namespace FileTree

/-- What the names lead to. -/
def lookup? (t : FileTree) (names : List String) : Option FileNode :=
  match t.entries.find? (·.1 == names) with
  | some (_, node) => some node
  | none =>
    if names.isEmpty || t.entries.any fun e => names.isPrefixOf e.1 then some .directory else none

/-- Where a walk along a path has come to: below the working directory, with the names in reverse, or
that many levels above it. Nothing is known of other directories but that they exist. -/
inductive Place where
  | below (reversed : List String)
  | above (levels : Nat)

/-- One step up. -/
def Place.up : Place → Place
  | .below (_ :: names) => .below names
  | .below [] => .above 1
  | .above n => .above (n + 1)

/-- Follows the components of a path from a directory. Empty components and points stay where they
are, which must be a directory. -/
def walk (t : FileTree) : Place → List String → Except IoError FileNode
  | _, [] => .ok .directory
  | place, c :: rest =>
    if c = "" ∨ c = "." then walk t place rest
    else if c = ".." then walk t place.up rest
    else if 255 < c.utf8ByteSize then .error .nameTooLong
    else
      match place with
      | .above _ => .error .notFound
      | .below names =>
        match t.lookup? (c :: names).reverse with
        | none => .error .notFound
        | some .directory => walk t (.below (c :: names)) rest
        | some (.file bytes) => if rest.isEmpty then .ok (.file bytes) else .error .notDirectory

/-- Opens a path. The root directory exists and nothing is known in it. -/
def toFileSystem (t : FileTree) : FileSystem := fun path =>
  if path.toList.contains '\x00' then .error .nulInPath
  else if path = "" then .error .notFound
  else if path.toList.head? = some '/' then
    if (Text.split '/' path).all fun c => c = "" ∨ c = "." ∨ c = ".." then .ok .directory
    else .error .notFound
  else t.walk (.below []) (Text.split '/' path)

end FileTree

end ScopeActions
