import ScopeActions.Text.Split

/-!
# Paths

A path is a root or not, and a list of components. Repeated separators and components `.` say nothing
and are not part of it; components `..` are. `Path.normalize` resolves them by what is written alone:
without looking at any file, so the result may differ from where a link would lead.
-/

namespace ScopeActions

/-- A path as it is written. -/
structure Path where
  rooted : Bool
  components : List String
  deriving DecidableEq, Repr

namespace Path

/-- Reads a path. -/
def ofText (s : String) : Path where
  rooted := s.toList.head? == some '/'
  components := (Text.split '/' s).filter fun c => c ≠ "" ∧ c ≠ "."

/-- Writes a path. The path without root and components is a single point. -/
def toText (p : Path) : String :=
  if p.rooted then "/" ++ String.intercalate "/" p.components
  else if p.components = [] then "."
  else String.intercalate "/" p.components

/-- The path `q` as seen from `p`. -/
def join (p q : Path) : Path :=
  if q.rooted then q else { p with components := p.components ++ q.components }

/-- The path without its last component; a path without components is its own parent. -/
def parent (p : Path) : Path :=
  { p with components := p.components.dropLast }

/-- Adds a component to a normal path, whose components are given last one first. `..` takes a name
back; it is kept where there is no name to take back, and says nothing at the root. -/
def step (rooted : Bool) (reversed : List String) (c : String) : List String :=
  if c = ".." then
    match reversed with
    | [] => if rooted then [] else [".."]
    | last :: rest => if last = ".." then ".." :: last :: rest else rest
  else c :: reversed

/-- Resolves every `..` that follows a name or the root. -/
def normalize (p : Path) : Path :=
  { p with components := (p.components.foldl (step p.rooted) []).reverse }

/-- The name after the last separator, if it is a name. -/
def fileName? (p : Path) : Option String :=
  p.components.getLast?.filter (· ≠ "..")

/-- What stands after the last point of the file name, unless the name starts with it. -/
def extension? (p : Path) : Option String := do
  let name ← p.fileName?
  match (Text.splitOn '.' name.toList).reverse with
  | [] | [_] => none
  | [_, []] => none
  | ext :: _ => some (String.ofList ext)

end Path

/-- Resolves a path as it is written in a configuration or on the command line. `~` stands for the home
directory, `~name` for the directory `name` next to it; other relative paths start at `base`, or stay
relative when that is empty. -/
def resolvePath (home base raw : String) : String :=
  let slash (c : Char) : Bool := c == '/' || c == '\\'
  let path :=
    match raw.toList with
    | '~' :: rest =>
      if rest.isEmpty || (rest.head?.map slash).getD false then
        (Path.ofText home).join (Path.ofText (String.ofList (rest.dropWhile slash)))
      else
        (Path.ofText home).parent.join (Path.ofText (String.ofList rest))
    | _ =>
      if base = "" then Path.ofText raw else (Path.ofText base).join (Path.ofText raw)
  path.normalize.toText

example : resolvePath "/home/user" "rel" "../../a/../b" = "../b" := by cbv
example : resolvePath "/home/user" "" "~.." = "/" := by cbv
example : resolvePath "/home/user" "/srv" "a/../.." = "/" := by cbv

end ScopeActions
