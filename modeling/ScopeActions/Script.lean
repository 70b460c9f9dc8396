import ScopeActions.World

/-!
# Scripted actions

Actions that are described by data: one notes that it is called, does a single thing, and may let others
run before it does so. Notes are values in the order in which they are made.
-/

namespace ScopeActions

/-- The one thing that a scripted action does. -/
inductive Deed where
  | succeed
  | fail (e : ActionFailure)
  | breakOff (p : Panic)
  /-- Stores a value. -/
  | store (key : String) (value : Json)
  /-- Stores the text of its tokens. -/
  | storeText (key : String)
  /-- Appends the text of its tokens to a list. -/
  | append (key : String)
  /-- Notes how its call is shown to a developer, if it does not let others run. -/
  | display
  deriving Repr

/-- A scripted action. -/
structure Script where
  label : String
  deed : Deed
  /-- How often it lets others run; nothing for an action that has no turns but one. -/
  yields : Option Nat := none
  deriving Repr

/-- The world of scripted actions: the store, and their notes. -/
abbrev NotedWorld := World (List Json)

namespace Script

/-- Makes a note. -/
def note (w : NotedWorld) (v : Json) : NotedWorld :=
  { w with other := w.other ++ [v] }

/-- The note of a call. -/
def callNote (s : Script) (event : String) (c : Call) : Json :=
  .obj [("event", .str event), ("label", .str s.label), ("scope", .str c.scope.text),
    ("trigger", .str c.trigger), ("tokens", .strings c.tokens), ("line", .nat c.line),
    ("document", match c.documentName? with
      | some name => .str name
      | none => .null),
    ("text", .str c.text)]

/-- Does what the action does. -/
def act (deed : Deed) (c : Call) (w : NotedWorld) : NotedWorld × Outcome Completion :=
  match deed with
  | .succeed | .display => (w, .value (.ok ()))
  | .fail e => (w, .value (.error e))
  | .breakOff p => (w, .panicked p)
  | .store key value => (w.store key value, .value (.ok ()))
  | .storeText key => (w.store key (.str c.text), .value (.ok ()))
  | .append key =>
    let (list, structures) := Store.getOrSet w.structures key (.arr [])
    let w := { w with structures }
    match list with
    | .arr items => (w.store key (.arr (items ++ [.str c.text])), .value (.ok ()))
    | _ => (w, .value (.error (.structures ("'" ++ key ++ "' is not a list"))))

/-- Does what an action of a single turn does. -/
def actAtOnce (deed : Deed) (c : Call) (w : NotedWorld) :
    NotedWorld × Outcome Completion :=
  match deed with
  | .display =>
    let shown := Completion.debug (.ok ())
    (note w (.obj [("ctx", .str c.debug), ("step", .str shown)]), .value (.ok ()))
  | deed => act deed c w

/-- The last turn of an action of several turns: does what it does and notes a success. -/
def finish (s : Script) (c : Call) (w : NotedWorld) : NotedWorld × Outcome Completion :=
  match act s.deed c w with
  | (w, .value (.ok ())) =>
    (note w (.obj [("event", .str "end"), ("label", .str s.label)]), .value (.ok ()))
  | failure => failure

/-- The action. -/
def handler (s : Script) : Handler NotedWorld := fun c =>
  match s.yields with
  | none => { last := fun w => actAtOnce s.deed c (note w (s.callNote "call" c)) }
  | some 0 => { last := fun w => s.finish c (note w (s.callNote "start" c)) }
  | some (n + 1) =>
    { turns := (fun w => note w (s.callNote "start" c)) :: List.replicate n id
      last := s.finish c }

end Script

end ScopeActions
