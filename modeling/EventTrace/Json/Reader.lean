import EventTrace.Json
import EventTrace.Text.Decimal
/-!
# Json — reading text

Stored data comes as text. Each reader here takes what is left of a text and
gives a value with what is left after it, or nothing if the text does not
start with such a value. A number is whole if it has the one written form of
a whole number; anything else that is a number, a negative zero included, is
a decimal. Nested values are read with a bound on the steps left, and the
length of the text is always enough, since every step uses up a character.
-/

namespace EventTrace

namespace Json.Reader

/-! ## Blanks and numbers -/

/-- Whether a character may stand between values. -/
def isBlank (c : Char) : Bool := c == ' ' || c == '\n' || c == '\r' || c == '\t'

/-- What is left after blanks. -/
def skipBlanks (cs : List Char) : List Char := cs.dropWhile isBlank

/-- Whether a character is a decimal digit. -/
def isDigit (c : Char) : Bool := (Text.digit? c).isSome

/-- Whether a character may stand in a number. -/
def isNumberChar (c : Char) : Bool :=
  isDigit c || c == '-' || c == '+' || c == '.' || c == 'e' || c == 'E'

/-- The value of an exponent with its letter; zero where there is none. -/
def exponent? : List Char → Option Int
  | [] => some 0
  | letter :: cs =>
    if letter == 'e' || letter == 'E' then
      match cs with
      | '-' :: ds => if ds.isEmpty then none else (Text.continued? 0 ds).map fun n => -n
      | '+' :: ds => if ds.isEmpty then none else (Text.continued? 0 ds).map Int.ofNat
      | ds => if ds.isEmpty then none else (Text.continued? 0 ds).map Int.ofNat
    else none

/-- A fraction's digits and what is left after it; no digits where there is
no fraction. -/
def fraction? : List Char → Option (List Char × List Char)
  | '.' :: cs =>
    if (cs.takeWhile isDigit).isEmpty then none
    else some (cs.takeWhile isDigit, cs.dropWhile isDigit)
  | cs => some ([], cs)

/-- The value of a number without its sign. -/
def magnitude? (cs : List Char) : Option Float := do
  let whole := cs.takeWhile isDigit
  let _ ← Text.natural? whole
  let (fraction, rest) ← fraction? (cs.dropWhile isDigit)
  let digits ← Text.continued? 0 (whole ++ fraction)
  let scale := (← exponent? rest) - fraction.length
  return Float.ofScientific digits (scale < 0) scale.natAbs

/-- The number written by some characters. -/
def number? (cs : List Char) : Option Json :=
  match Text.decimal? (String.ofList cs) with
  | some n => some (.integer n)
  | none =>
    match cs with
    | '-' :: rest => (magnitude? rest).map fun x => .decimal (-x)
    | rest => (magnitude? rest).map .decimal

/-! ## Strings -/

/-- The value of a hexadecimal digit. -/
def hexDigit? (c : Char) : Option Nat :=
  if 'a' ≤ c ∧ c ≤ 'f' then some (c.toNat - 'a'.toNat + 10)
  else if 'A' ≤ c ∧ c ≤ 'F' then some (c.toNat - 'A'.toNat + 10)
  else Text.digit? c

/-- The code unit written by four hexadecimal digits. -/
def codeUnit? (a b c d : Char) : Option Nat := do
  return (((← hexDigit? a) * 16 + (← hexDigit? b)) * 16 + (← hexDigit? c)) * 16 + (← hexDigit? d)

/-- The character that one letter after a backslash stands for. -/
def escaped? : Char → Option Char
  | '"' => some '"'
  | '\\' => some '\\'
  | '/' => some '/'
  | 'b' => some '\x08'
  | 'f' => some '\x0c'
  | 'n' => some '\n'
  | 'r' => some '\r'
  | 't' => some '\t'
  | _ => none

/-- Whether a code unit is the first, or the second, half of a pair. -/
def isHalf (first : Bool) (unit : Nat) : Bool :=
  if first then 0xd800 ≤ unit && unit < 0xdc00 else 0xdc00 ≤ unit && unit < 0xe000

/-- The character written by a pair of code units. -/
def paired (high low : Nat) : Char :=
  Char.ofNat (0x10000 + (high - 0xd800) * 0x400 + (low - 0xdc00))

/-- The rest of a string after its opening quote, the characters so far in
reverse. -/
def string? : List Char → List Char → Option (String × List Char)
  | '"' :: rest, soFar => some (String.ofList soFar.reverse, rest)
  | '\\' :: 'u' :: a :: b :: c :: d :: rest, soFar =>
    match codeUnit? a b c d with
    | none => none
    | some unit =>
      if isHalf true unit then
        match rest with
        | '\\' :: 'u' :: e :: f :: g :: h :: rest =>
          match (codeUnit? e f g h).filter (isHalf false) with
          | none => none
          | some low => string? rest (paired unit low :: soFar)
        | _ => none
      else if isHalf false unit then none
      else string? rest (Char.ofNat unit :: soFar)
  | '\\' :: c :: rest, soFar =>
    match escaped? c with
    | none => none
    | some c => string? rest (c :: soFar)
  | c :: rest, soFar => if c < ' ' then none else string? rest (c :: soFar)
  | [], _ => none

/-! ## Values -/

mutual

/-- A value, within a number of steps. -/
def value? : Nat → List Char → Option (Json × List Char)
  | 0, _ => none
  | n + 1, cs =>
    match skipBlanks cs with
    | '{' :: rest =>
      match skipBlanks rest with
      | '}' :: rest => some (.object [], rest)
      | rest => (fields? n rest []).map fun p => (.object p.1, p.2)
    | '[' :: rest =>
      match skipBlanks rest with
      | ']' :: rest => some (.array [], rest)
      | rest => (items? n rest []).map fun p => (.array p.1, p.2)
    | '"' :: rest => (string? rest []).map fun p => (.string p.1, p.2)
    | 't' :: 'r' :: 'u' :: 'e' :: rest => some (.bool true, rest)
    | 'f' :: 'a' :: 'l' :: 's' :: 'e' :: rest => some (.bool false, rest)
    | 'n' :: 'u' :: 'l' :: 'l' :: rest => some (.null, rest)
    | rest =>
      (number? (rest.takeWhile isNumberChar)).map fun j => (j, rest.dropWhile isNumberChar)

/-- The items of an array from one of them on, those so far in reverse. -/
def items? : Nat → List Char → List Json → Option (List Json × List Char)
  | 0, _, _ => none
  | n + 1, cs, soFar =>
    match value? n cs with
    | none => none
    | some (item, rest) =>
      match skipBlanks rest with
      | ',' :: rest => items? n rest (item :: soFar)
      | ']' :: rest => some ((item :: soFar).reverse, rest)
      | _ => none

/-- The fields of an object from one of them on, those so far in reverse. -/
def fields? : Nat → List Char → List (String × Json) → Option (List (String × Json) × List Char)
  | 0, _, _ => none
  | n + 1, cs, soFar =>
    match skipBlanks cs with
    | '"' :: rest =>
      match string? rest [] with
      | none => none
      | some (name, rest) =>
        match skipBlanks rest with
        | ':' :: rest =>
          match value? n rest with
          | none => none
          | some (value, rest) =>
            match skipBlanks rest with
            | ',' :: rest => fields? n rest ((name, value) :: soFar)
            | '}' :: rest => some (((name, value) :: soFar).reverse, rest)
            | _ => none
        | _ => none
    | _ => none

end

end Json.Reader

namespace Json

/-- The value that a text holds and nothing else. -/
def ofText? (s : String) : Option Json :=
  match Reader.value? (s.length + 1) s.toList with
  | some (j, rest) => if (Reader.skipBlanks rest).isEmpty then some j else none
  | none => none

end Json

end EventTrace
