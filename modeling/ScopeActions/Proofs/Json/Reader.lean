import Mathlib.Data.List.Basic
import ScopeActions.Json.Parser
/-!
# Readers of JSON

The readers of numbers, strings and containers are made of a few combinators: a reader goes on after a word
(`Reader.onWord`), after blanks, after digits, or after what another reader reads. Main statements: the readers of
numbers and values as such (`Number.read_eq`, `readItems_succ`, `readFields_succ`, `readValue_succ`).
-/

namespace ScopeActions.Json

variable {α β : Type} {cs rest : List Char}

/-! ## Combinators -/

/-- Reads something at the front of a text and gives the rest. -/
abbrev Reader (α : Type) := List Char → Option (α × List Char)

namespace Reader

/-- Reads nothing. -/
def offer (a : Option α) : Reader α :=
  fun cs => a.map (·, cs)

/-- Reads on, as what was read says. -/
def andThen (read : Reader α) (next : α → Reader β) : Reader β :=
  fun cs => (read cs).bind fun r => next r.1 r.2

/-- Reads on after a word, or else in another way. -/
def onWord (word : List Char) (read other : Reader α) : Reader α :=
  fun cs => match cs.dropPrefix? word with
    | some rest => read rest
    | none => other cs

/-- Reads digits, and on as they say. -/
def onDigits (next : List Char → Reader α) : Reader α :=
  fun cs => next (cs.takeWhile Char.isDigit) (cs.dropWhile Char.isDigit)

/-- Reads on after blanks. -/
def onSpace (read : Reader α) : Reader α :=
  fun cs => read (skipSpace cs)

variable {read other : Reader α} {word : List Char}

theorem onWord_append (word rest : List Char) (read other : Reader α) :
    onWord word read other (word ++ rest) = read rest := by
  rw [onWord, List.dropPrefix?_append_of_beq rest BEq.rfl]

theorem onWord_char (c : Char) (rest : List Char) (read other : Reader α) :
    onWord [c] read other (c :: rest) = read rest :=
  onWord_append [c] rest read other

theorem onWord_of_ne (h : ∀ rest, cs ≠ word ++ rest) : onWord word read other cs = other cs := by
  unfold onWord
  split
  · next rest hrest =>
    obtain ⟨front, rfl, hfront⟩ := List.dropPrefix?_eq_some_iff.1 hrest
    exact absurd (congrArg (· ++ rest) (eq_of_beq hfront)) (h rest)
  · rfl

theorem onWord_of_head_ne {c d : Char} (h : d ≠ c) : onWord (c :: word) read other (d :: rest) = other (d :: rest) :=
  onWord_of_ne fun _ heq => h (List.cons.inj heq).1

end Reader

/-! ## Numbers -/

namespace Number

open Reader

/-- What follows the sign of an exponent. -/
def readPower (negative : Bool) (d : Digits) (down : Bool) : Reader Binary64 :=
  onDigits fun digits => offer (
    if digits.isEmpty then none
    else withExponent negative d down (digits.foldl (fun n c => n * 10 + digitValue c) 0))

theorem readPower_eq (negative : Bool) (d : Digits) (down : Bool) (cs : List Char) : readPower negative d down cs =
    if (cs.takeWhile Char.isDigit).isEmpty then none
    else
      (withExponent negative d down ((cs.takeWhile Char.isDigit).foldl (fun n c => n * 10 + digitValue c) 0)).map
        (·, cs.dropWhile Char.isDigit) := by
  rw [readPower, onDigits, offer]
  split <;> rfl

theorem readExponent_eq (negative : Bool) (d : Digits) : readExponent negative d =
    onWord ['+'] (readPower negative d false) (onWord ['-'] (readPower negative d true) (readPower negative d false)) := by
  funext cs
  unfold readExponent
  dsimp only
  split
  · rw [onWord_char, readPower_eq]
  · rw [onWord_of_head_ne (by decide), onWord_char, readPower_eq]
  · next hplus hminus => rw [onWord_of_ne hplus, onWord_of_ne hminus, readPower_eq]

/-- What follows a fraction: an exponent, or nothing more. -/
def readEnd (negative : Bool) (d : Digits) (whole : Option Json) : Reader Json :=
  let power := andThen (readExponent negative d) fun v => offer (some (double v))
  onWord ['e'] power (onWord ['E'] power (offer whole))

/-- What follows the digits in front: a fraction, an exponent, or nothing more. -/
def readRest (negative : Bool) (d : Digits) : Reader Json :=
  let fraction := onDigits fun digits =>
    if digits.isEmpty then offer none
    else
      let d := digits.foldl (fun d c => d.pushFraction (digitValue c)) { d with full := false }
      readEnd negative d ((Binary64.ofScaled? negative d.significand d.exponent).map double)
  onWord ['.'] fraction (readEnd negative d (ofWhole? negative d))

theorem readEnd_eq (negative : Bool) (d : Digits) (whole : Option Json) (cs : List Char) : readEnd negative d whole cs =
    match cs with
    | 'e' :: rest => (readExponent negative d rest).map fun r => (double r.1, r.2)
    | 'E' :: rest => (readExponent negative d rest).map fun r => (double r.1, r.2)
    | rest => whole.map (·, rest) := by
  have hpower : ∀ rest, (andThen (readExponent negative d) fun v => offer (some (double v))) rest =
      (readExponent negative d rest).map fun r => (double r.1, r.2) := by
    intro rest
    rw [andThen]
    cases readExponent negative d rest <;> rfl
  rw [readEnd]
  split
  · rw [onWord_char, hpower]
  · rw [onWord_of_head_ne (by decide), onWord_char, hpower]
  · next he hE => rw [onWord_of_ne he, onWord_of_ne hE, offer]

/-- What the digits in front count to. Only a zero of its own may come first. -/
def start? : List Char → Option Digits
  | [] => none
  | '0' :: _ :: _ => none
  | whole => some (whole.foldl (fun d c => d.pushWhole (digitValue c)) {})

theorem readUnsigned_eq (negative : Bool) : readUnsigned negative = onDigits fun whole =>
    match start? whole with
    | none => offer none
    | some d => readRest negative d := by
  funext cs
  unfold readUnsigned onDigits
  generalize cs.takeWhile Char.isDigit = whole
  generalize cs.dropWhile Char.isDigit = rest
  dsimp only
  split
  · rfl
  · rfl
  · next hnil hzero =>
    rw [start?.eq_3 whole hnil hzero]
    generalize whole.foldl _ _ = d
    dsimp only
    rw [readRest]
    split
    · rw [onWord_char, onDigits]
      dsimp only
      split
      · rfl
      · rw [readEnd_eq]
        simp only [Option.map_map]
        rfl
    · rw [onWord_of_head_ne (by decide)]
      exact (readEnd_eq negative d _ ('e' :: _)).symm
    · rw [onWord_of_head_ne (by decide)]
      exact (readEnd_eq negative d _ ('E' :: _)).symm
    · next hpoint he hE => rw [onWord_of_ne hpoint, readEnd, onWord_of_ne he, onWord_of_ne hE, offer]

theorem read_eq : read = onWord ['-'] (readUnsigned true) (readUnsigned false) := by
  funext cs
  fun_cases read cs with
  | case1 cs => rw [onWord_char]
  | case2 cs hminus => rw [onWord_of_ne hminus]

end Number

/-! ## Values -/

open Reader

/-- Reads on after an item: further items after a comma, or the end. -/
def readMore (close : Char) (first : α) (more : Reader (List α)) : Reader (List α) :=
  onSpace (onWord [','] (andThen more fun items => offer (some (first :: items)))
    (onWord [close] (offer (some [first])) (offer none)))

/-- Reads a container, if one more may be open. -/
def readInside (depth : Nat) (close : Char) (empty : Json) (read : Nat → Reader Json) : Reader Json :=
  if depth = 0 then offer none
  else onSpace (onWord [close] (offer (some empty)) (read (depth - 1)))

section

variable {close : Char} {first : α} {more : Reader (List α)}

theorem readMore_comma (h : skipSpace cs = ',' :: rest) :
    readMore close first more cs = (more rest).map fun r => (first :: r.1, r.2) := by
  rw [readMore, onSpace, h, onWord_char, andThen]
  cases more rest <;> rfl

theorem readMore_close (h : skipSpace cs = close :: rest) (hclose : close ≠ ',') :
    readMore close first more cs = some ([first], rest) := by
  rw [readMore, onSpace, h, onWord_of_head_ne hclose, onWord_char]
  rfl

theorem readMore_other (hcomma : ∀ rest, skipSpace cs ≠ ',' :: rest) (hclose : ∀ rest, skipSpace cs ≠ close :: rest) :
    readMore close first more cs = none := by
  rw [readMore, onSpace, onWord_of_ne hcomma, onWord_of_ne hclose]
  rfl

end

theorem readItems_succ (depth steps : Nat) : readItems depth (steps + 1) =
    andThen (readValue depth steps) fun v => readMore ']' v (readItems depth steps) := by
  funext cs
  rw [readItems, andThen]
  rcases readValue depth steps cs with _ | ⟨v, rest⟩
  · rfl
  · dsimp only [Option.bind_some]
    split
    · next h => exact (readMore_comma h).symm
    · next h => exact (readMore_close h (by decide)).symm
    · next hcomma hclose => exact (readMore_other hcomma hclose).symm

/-- Reads on after a key. -/
def readField (depth steps : Nat) (key : String) : Reader (List (String × Json)) :=
  onSpace (onWord [':'] (andThen (readValue depth steps) fun v => readMore '\x7d' (key, v) (readFields depth steps))
    (offer none))

theorem readFields_succ (depth steps : Nat) : readFields depth (steps + 1) =
    onSpace (onWord ['"'] (andThen (readString []) (readField depth steps)) (offer none)) := by
  funext cs
  rw [readFields, onSpace]
  generalize skipSpace cs = cs
  split
  · next cs =>
    rw [onWord_char, andThen]
    rcases readString [] cs with _ | ⟨key, rest⟩
    · rfl
    · dsimp only [Option.bind_some, readField, onSpace]
      generalize skipSpace rest = rest
      split
      · next rest =>
        rw [onWord_char, andThen]
        rcases readValue depth steps rest with _ | ⟨v, rest⟩
        · rfl
        · dsimp only [Option.bind_some]
          split
          · next h => exact (readMore_comma h).symm
          · next h => exact (readMore_close h (by decide)).symm
          · next hcomma hclose => exact (readMore_other hcomma hclose).symm
      · next hcolon =>
        rw [onWord_of_ne hcolon]
        rfl
  · next hquote =>
    rw [onWord_of_ne hquote]
    rfl

/-- Reads an array that is not empty, after its opening bracket. -/
def readList (depth steps : Nat) : Reader Json :=
  andThen (readItems depth steps) fun vs => offer (some (arr vs))

/-- Reads an object that is not empty, after its opening brace. -/
def readObject (depth steps : Nat) : Reader Json :=
  andThen (readFields depth steps) fun fields => offer (some (obj fields))

theorem readValue_succ (depth steps : Nat) : readValue depth (steps + 1) =
    onSpace (onWord ['n', 'u', 'l', 'l'] (offer (some null))
      (onWord ['t', 'r', 'u', 'e'] (offer (some (bool true)))
      (onWord ['f', 'a', 'l', 's', 'e'] (offer (some (bool false)))
      (onWord ['"'] (andThen (readString []) fun s => offer (some (str s)))
      (onWord ['['] (readInside depth ']' (arr []) fun depth => readList depth steps)
      (onWord ['\x7b'] (readInside depth '\x7d' (obj []) fun depth => readObject depth steps)
      Number.read)))))) := by
  have hother : ∀ {c d : Char} {cs word : List Char} {read other : Reader Json}, d ≠ c →
      onWord (c :: word) read other (d :: cs) = other (d :: cs) := onWord_of_head_ne
  funext cs
  rw [readValue, onSpace]
  generalize skipSpace cs = cs
  split
  · next rest => exact (onWord_append ['n', 'u', 'l', 'l'] rest (offer (some null)) _).symm
  · next rest =>
    rw [hother (by decide)]
    exact (onWord_append ['t', 'r', 'u', 'e'] rest (offer (some (bool true))) _).symm
  · next rest =>
    rw [hother (by decide), hother (by decide)]
    exact (onWord_append ['f', 'a', 'l', 's', 'e'] rest (offer (some (bool false))) _).symm
  · next rest =>
    rw [hother (by decide), hother (by decide), hother (by decide), onWord_char, andThen]
    cases readString [] rest <;> rfl
  · next rest =>
    rw [hother (by decide), hother (by decide), hother (by decide), hother (by decide), onWord_char, readInside]
    split
    · rfl
    · rw [onSpace]
      generalize skipSpace rest = rest
      split
      · rw [onWord_char]
        rfl
      · next hclose =>
        rw [onWord_of_ne hclose, readList, andThen]
        cases readItems (depth - 1) steps rest <;> rfl
  · next rest =>
    rw [hother (by decide), hother (by decide), hother (by decide), hother (by decide), hother (by decide), onWord_char,
      readInside]
    split
    · rfl
    · rw [onSpace]
      generalize skipSpace rest = rest
      split
      · rw [onWord_char]
        rfl
      · next hclose =>
        rw [onWord_of_ne hclose, readObject, andThen]
        cases readFields (depth - 1) steps rest <;> rfl
  · next hnull htrue hfalse hquote hlist hfields =>
    rw [onWord_of_ne hnull, onWord_of_ne htrue, onWord_of_ne hfalse, onWord_of_ne hquote, onWord_of_ne hlist,
      onWord_of_ne hfields]

theorem readValue_nil (depth steps : Nat) : readValue depth steps [] = none := by
  cases steps <;> rfl

theorem readItems_nil (depth steps : Nat) : readItems depth steps [] = none := by
  cases steps with
  | zero => rfl
  | succ steps => rw [readItems, readValue_nil]

theorem readFields_nil (depth steps : Nat) : readFields depth steps [] = none := by
  cases steps <;> rfl

theorem readList_nil (depth steps : Nat) : readList depth steps [] = none := by
  rw [readList, andThen, readItems_nil, Option.bind_none]

theorem readObject_nil (depth steps : Nat) : readObject depth steps [] = none := by
  rw [readObject, andThen, readFields_nil, Option.bind_none]

end ScopeActions.Json
