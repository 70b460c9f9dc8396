import ScopeActions.Assoc

/-!
# Arguments

The grammar of a command line. A level of it has options, flags and positional arguments; the outer level
also has subcommands, each with a level of its own. An option takes its value attached (`--name=v`,
`-nv`, `-n=v`) or from the next argument, unless that looks like an option. What stands after `--` is
positional.

A value that is not attached is looked at only when the next option or positional argument is met, or
when the level is at its end; so a mistake met before that is the one that is reported.
-/

namespace ScopeActions

/-- Why arguments are not a command: a mistake, or a screen that was asked for instead. -/
inductive UsageError where
  | unknownArgument
  | unknownSubcommand
  | missingArgument
  | missingSubcommand
  | missingValue
  | badValue (message : String)
  /-- Something that may stand once stands twice. -/
  | repeated
  /-- A flag has a value attached. -/
  | unexpectedValue
  | help
  | version
  /-- There are no arguments at all. -/
  | nothingGiven
  deriving DecidableEq, Repr

/-- How many values an option has. -/
inductive Arity where
  /-- None; it is a flag. -/
  | flag
  | single
  /-- One each time it is given. -/
  | list
  deriving DecidableEq, Repr

/-- An option or a flag. -/
structure OptionSpec where
  long : String
  short : Option Char := none
  arity : Arity
  /-- What is wrong with a value, if anything is. -/
  check : String → Option UsageError := fun _ => none

/-- The positional arguments of a level, by the name of their values. -/
inductive Positional where
  | none
  | single (name : String)
  | list (name : String)
  deriving DecidableEq, Repr

/-- What may stand on a level. -/
structure LevelSpec where
  options : List OptionSpec
  positional : Positional := .none
  /-- The options and positional arguments that must be given. -/
  required : List String := []
  /-- The subcommands; a level with any also has `help`. -/
  subcommands : List String := []
  /-- The level has a flag for the version. -/
  versioned : Bool := false

/-- What an option's name stands for. -/
inductive OptionMatch where
  | option (o : OptionSpec)
  | help
  | version

namespace LevelSpec

/-- The option with the given long name. -/
def long? (s : LevelSpec) (name : String) : Option OptionMatch :=
  if name = "help" then some .help
  else if name = "version" ∧ s.versioned then some .version
  else (s.options.find? (·.long == name)).map .option

/-- The option with the given letter. -/
def short? (s : LevelSpec) (c : Char) : Option OptionMatch :=
  if c = 'h' then some .help
  else if c = 'V' ∧ s.versioned then some .version
  else (s.options.find? (·.short == some c)).map .option

/-- The text names a subcommand. -/
def isSubcommand (s : LevelSpec) (name : String) : Bool :=
  !s.subcommands.isEmpty && (name == "help" || s.subcommands.contains name)

end LevelSpec

/-- What has been read of a level. -/
structure Level where
  /-- The values by name; a flag that is given has none. -/
  values : Assoc (List String) := []
  /-- An option whose value is not looked at yet, if it has come at all. -/
  pending : Option (OptionSpec × Option String) := none

namespace Level

/-- Takes an option with its value. -/
def take (l : Level) (o : OptionSpec) (value : Option String) : Except UsageError Level :=
  let earlier := Assoc.get? l.values o.long
  if o.arity ≠ .flag ∧ value.isNone then .error .missingValue
  else if o.arity ≠ .list ∧ earlier.isSome then .error .repeated
  else
    match value.bind o.check with
    | some e => .error e
    | none => .ok { l with values := Assoc.put l.values o.long (earlier.getD [] ++ value.toList) }

/-- Takes the option that is pending. -/
def settle (l : Level) : Except UsageError Level :=
  match l.pending with
  | none => .ok l
  | some (o, value) => { l with pending := none }.take o value

/-- An option waits for the next argument as its value. -/
def isWaiting (l : Level) : Bool :=
  match l.pending with
  | some (_, none) => true
  | _ => false

/-- Gives the option that waits its value. -/
def supply (l : Level) (value : String) : Level :=
  { l with pending := l.pending.map fun p => (p.1, some value) }

/-- Begins an option that takes a value, which is attached or will come. -/
def start (l : Level) (o : OptionSpec) : Option String → Except UsageError Level
  | some value => do (← l.settle).take o (some value)
  | none => do return { ← l.settle with pending := some (o, none) }

/-- Takes a flag. -/
def raise (l : Level) (o : OptionSpec) : Except UsageError Level := do
  (← l.settle).take o none

/-- A screen is asked for. -/
def screen (l : Level) (e : UsageError) : Except UsageError Level := do
  let _ ← l.settle
  throw e

/-- Takes an argument that starts with two dashes, without them. -/
def takeLong (s : LevelSpec) (l : Level) (arg : List Char) : Except UsageError Level :=
  let name := String.ofList (arg.takeWhile (· != '='))
  let attached :=
    match arg.dropWhile (· != '=') with
    | [] => none
    | _ :: value => some (String.ofList value)
  match s.long? name, attached with
  | none, _ => .error .unknownArgument
  | some (.option o), attached =>
    if o.arity = .flag then
      if attached.isSome then .error .unexpectedValue else l.raise o
    else l.start o attached
  | some _, some _ => .error .unexpectedValue
  | some .help, none => l.screen .help
  | some .version, none => l.screen .version

/-- Takes an argument that starts with one dash, without it: any number of flags, and an option at
most, whose value may follow. -/
def takeShort (s : LevelSpec) (l : Level) : List Char → Except UsageError Level
  | [] => .ok l
  | c :: rest =>
    match s.short? c with
    | none => .error .unknownArgument
    | some .help => l.screen .help
    | some .version => l.screen .version
    | some (.option o) =>
      if o.arity = .flag then
        match l.raise o with
        | .error e => .error e
        | .ok l => takeShort s l rest
      else
        match rest with
        | [] => l.start o none
        | '=' :: value => l.start o (some (String.ofList value))
        | value => l.start o (some (String.ofList value))

/-- Takes a positional argument. -/
def takePositional (s : LevelSpec) (trailing : Bool) (l : Level) (arg : String) :
    Except UsageError Level :=
  match s.positional with
  | .none =>
    if s.subcommands.isEmpty || (trailing && s.isSubcommand arg) then .error .unknownArgument
    else .error .unknownSubcommand
  | .single name =>
    if Assoc.contains l.values name then .error .unknownArgument
    else do
      let l ← l.settle
      return { l with values := Assoc.put l.values name [arg] }
  | .list name => do
    let l ← l.settle
    return { l with values := Assoc.put l.values name ((Assoc.get? l.values name).getD [] ++ [arg]) }

/-- Reads the arguments of a level, up to a subcommand. `trailing` says that `--` has been met. -/
def read (s : LevelSpec) (trailing : Bool) (l : Level) :
    List String → Except UsageError (Level × Option (String × List String))
  | [] => .ok (l, none)
  | arg :: args =>
    let next (taken : Except UsageError Level) :=
      match taken with
      | .error e => .error e
      | .ok l => read s trailing l args
    if trailing then next (l.takePositional s true arg)
    else if !l.isWaiting && s.isSubcommand arg then .ok (l, some (arg, args))
    else
      match arg.toList with
      | ['-', '-'] => read s true l args
      | '-' :: '-' :: rest => next (l.takeLong s rest)
      | '-' :: c :: rest => next (l.takeShort s (c :: rest))
      | _ => if l.isWaiting then read s false (l.supply arg) args else next (l.takePositional s false arg)

/-- Ends a level: all that must be given has been. -/
def close (s : LevelSpec) (l : Level) : Except UsageError Level := do
  let l ← l.settle
  if s.required.all fun name => Assoc.contains l.values name then return l
  throw .missingArgument

end Level

/-- A command as it is written: the values on the outer level, the subcommand and the values on its. -/
structure WrittenCommand where
  outer : Level
  subcommand : String
  inner : Level

namespace WrittenCommand

/-- The values of an option that may stand on both levels. Those of the inner level count, if there are
any. -/
def values? (w : WrittenCommand) (name : String) : Option (List String) :=
  (Assoc.get? w.inner.values name).or (Assoc.get? w.outer.values name)

/-- The values of an option; nothing for one that is not given. -/
def values (w : WrittenCommand) (name : String) : List String :=
  (w.values? name).getD []

/-- The last value of an option. -/
def last? (w : WrittenCommand) (name : String) : Option String :=
  (w.values name).getLast?

/-- A flag is given. -/
def isGiven (w : WrittenCommand) (name : String) : Bool :=
  (w.values? name).isSome

/-- What asking for help on the given topics shows. -/
def helpOn (s : LevelSpec) : List String → UsageError
  | [] => .help
  | [topic] => if s.isSubcommand topic then .help else .unknownSubcommand
  | _ => .unknownSubcommand

/-- Reads a command, given the outer level and the levels of its subcommands. -/
def read (s : LevelSpec) (sub : String → LevelSpec) (args : List String) :
    Except UsageError WrittenCommand := do
  let (outer, next) ← Level.read s false {} args
  match next with
  | none =>
    let outer ← outer.settle
    throw (if outer.values.isEmpty then .nothingGiven else .missingSubcommand)
  | some (name, rest) =>
    if name = "help" then throw (helpOn s rest)
    let (inner, _) ← Level.read (sub name) false {} rest
    let inner ← inner.close (sub name)
    let outer ← outer.settle
    return { outer, subcommand := name, inner }

end WrittenCommand

end ScopeActions
