import ScopeActions.Document
import ScopeActions.Scope
import ScopeActions.Task
import ScopeActions.Text.Quoted

/-!
# Actions

An action is run when its scope is seen while a document is scanned. It is given a call and is a task
on the world it shares with the other actions.
-/

namespace ScopeActions

/-- Why an action did not succeed. -/
inductive ActionFailure where
  | failed (message : String)
  | io (message : String)
  | structures (message : String)
  | panicked (message : String)
  | cancelled
  deriving DecidableEq, Repr

/-- The wording of an action's failure. -/
def ActionFailure.message : ActionFailure → String
  | .failed message => message
  | .io message => "I/O error: " ++ message
  | .structures message => "structure error: " ++ message
  | .panicked message => "action panicked: " ++ message
  | .cancelled => "action cancelled"

/-- How an action ends that runs to its end. -/
abbrev Completion := Except ActionFailure Unit

/-- What an action is told when it is called. -/
structure Call where
  /-- The scope the action is registered on. -/
  scope : Scope
  /-- The scope or event that called for it. -/
  trigger : String
  /-- The texts of the tokens of one line, or the files of a run. -/
  tokens : List String
  line : Nat
  document : Option Document
  deriving DecidableEq

namespace Call

/-- The texts of the tokens one after the other. -/
def text (c : Call) : String :=
  String.join c.tokens

/-- The name of the document, if there is one. -/
def documentName? (c : Call) : Option String :=
  c.document.map (·.name)

/-- The form in which a call is shown to a developer. -/
def debug (c : Call) : String :=
  let document :=
    match c.documentName? with
    | none => "None"
    | some name => "Some(" ++ Text.quote name ++ ")"
  "ActionContext \x7b scope: " ++ c.scope.debug ++ ", trigger: " ++ Text.quote c.trigger
    ++ ", tokens: " ++ Text.quoteList c.tokens ++ ", line: " ++ toString c.line
    ++ ", document: " ++ document ++ ", .. \x7d"

end Call

/-- The form in which an error is shown to a developer. -/
def ActionFailure.debug : ActionFailure → String
  | .failed message => "Failed(" ++ Text.quote message ++ ")"
  | .io message => "Io(" ++ Text.quote message ++ ")"
  | .structures message => "Structure(" ++ Text.quote message ++ ")"
  | .panicked message => "Panicked(" ++ Text.quote message ++ ")"
  | .cancelled => "Cancelled"

/-- The form in which the answer of an action is shown to a developer that ended in its first turn. -/
def Completion.debug : Completion → String
  | .ok () => "Done(Ok(()))"
  | .error e => "Done(Err(" ++ e.debug ++ "))"

/-- What is registered for an action: the task that a call of it is. -/
abbrev Handler (σ : Type) := Call → Task σ Completion

end ScopeActions
