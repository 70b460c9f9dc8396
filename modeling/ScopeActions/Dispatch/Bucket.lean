import ScopeActions.Dispatch.Token
import ScopeActions.Scope

/-!
# Buckets

The token texts of a line by scope. Buckets stand in the order in which their scopes are first seen on
the line, and texts in the order of the tokens. Only scopes that are admitted have a bucket.
-/

namespace ScopeActions

/-- The texts of a scope on a line. -/
structure Bucket where
  scope : Scope
  texts : List String
  deriving DecidableEq

namespace Bucket

/-- Adds a text to the bucket of a scope, which is made if there is none and the scope is admitted. -/
def add (admits : Scope → Bool) (text : String) : List Bucket → String → List Bucket
  | [], scope =>
    match Scope.parse? scope with
    | some key => if admits key then [{ scope := key, texts := [text] }] else []
    | none => []
  | b :: buckets, scope =>
    if b.scope.text = scope then { b with texts := b.texts ++ [text] } :: buckets
    else b :: add admits text buckets scope

/-- The buckets of a line. -/
def ofLine (admits : Scope → Bool) (line : String) (tokens : List Token) : List Bucket :=
  tokens.foldl (fun buckets t => t.scopes.foldl (add admits (t.text line)) buckets) []

end Bucket

end ScopeActions
