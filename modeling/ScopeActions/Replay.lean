import ScopeActions.Dispatch.Dispatcher
import ScopeActions.Files
import ScopeActions.Text.Blank

/-!
# Replaying token streams

A token stream is a text with a record for every line of a document: a JSON list of tokens, or nothing
but blanks for a line without any. A tokenizer that replays it gives out one record after the other,
whatever the lines are.
-/

namespace ScopeActions

/-- What reads a JSON list of tokens, and gives nothing for a text that is none. -/
abbrev TokenReader := String → Option (List Token)

/-- Why the records of a stream could not be read. The reasons that a reader of a text gives are not
kept; a mark stands for them in messages. -/
inductive RecordError where
  | io (e : IoError)
  | malformed (record : Nat)
  deriving DecidableEq, Repr

/-- The messages from the outermost to the innermost. -/
def RecordError.chain : RecordError → List String
  | .io e => [e.message]
  | .malformed record => ["record " ++ toString record, "<json>"]

/-- Why a stream could not be read from a file. -/
inductive ReplayError where
  | opening (path : String) (e : IoError)
  | reading (path : String) (e : RecordError)
  deriving DecidableEq, Repr

/-- The messages from the outermost to the innermost. -/
def ReplayError.chain : ReplayError → List String
  | .opening path e => ["opening token stream " ++ path, e.message]
  | .reading path e => ("reading token stream " ++ path) :: e.chain

/-- The tokens recorded for the lines of a document. -/
structure TokenStream where
  records : List (List Token)
  deriving DecidableEq, Repr

namespace TokenStream

/-- The pieces of a stream that end in a line feed, or in a carriage return and a line feed; and what
stands after the last of them, if there is anything. -/
def split : List UInt8 → List (List UInt8)
  | [] => []
  | 10 :: bytes => [] :: split bytes
  | 13 :: 10 :: bytes => [] :: split bytes
  | b :: bytes =>
    match split bytes with
    | [] => [[b]]
    | piece :: pieces => (b :: piece) :: pieces

/-- Reads the tokens of a record. -/
def readRecord? (read : TokenReader) (text : String) : Option (List Token) :=
  if Text.isBlankText text then some [] else read text

/-- Reads records, the first of which has the given number. -/
def readRecords (read : TokenReader) (number : Nat) :
    List (List UInt8) → Except RecordError (List (List Token))
  | [] => .ok []
  | piece :: pieces =>
    match String.fromUTF8? ⟨piece.toArray⟩ with
    | none => .error (.io .invalidText)
    | some text =>
      match readRecord? read text with
      | none => .error (.malformed number)
      | some tokens => (readRecords read (number + 1) pieces).map (tokens :: ·)

/-- Reads a stream. -/
def ofBytes (read : TokenReader) (bytes : ByteArray) : Except RecordError TokenStream :=
  (readRecords read 0 (split bytes.toList)).map fun records => { records }

/-- Reads a stream from a file. -/
def ofFile (read : TokenReader) (fs : FileSystem) (path : String) : Except ReplayError TokenStream :=
  match fs path with
  | .error e => .error (.opening path e)
  | .ok .directory => .error (.reading path (.io .isDirectory))
  | .ok (.file bytes) => (ofBytes read bytes).mapError (.reading path)

/-- Gives out the records in order. The state is the number of the next one. -/
def tokenizer (s : TokenStream) : Tokenizer Nat where
  start := 0
  tokenize _ number :=
    match s.records[number]? with
    | none => .error ("no tokens recorded for line " ++ toString number)
    | some tokens => .ok (tokens, number + 1)

end TokenStream

end ScopeActions
