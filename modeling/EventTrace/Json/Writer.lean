import EventTrace.Json
import EventTrace.Text.Decimal
/-!
# Json — writing text

Stored data leaves as text without blanks. A quote, a backslash and a control
character of a string are written behind a backslash, by a letter of their own
where they have one and by their number otherwise; every other character is
written as it is. No stored form has a number with a fraction or an exponent,
so none is written here.
-/

namespace EventTrace

namespace Json.Writer

/-- The lower-case hexadecimal digit of a value below sixteen. -/
def hexChar (d : Nat) : Char :=
  if d < 10 then Text.digitChar d else Char.ofNat ('a'.toNat + (d - 10))

/-- A character of a string as written. -/
def charText (c : Char) : List Char :=
  if c = '"' then ['\\', '"']
  else if c = '\\' then ['\\', '\\']
  else if c = '\x08' then ['\\', 'b']
  else if c = '\x0c' then ['\\', 'f']
  else if c = '\n' then ['\\', 'n']
  else if c = '\r' then ['\\', 'r']
  else if c = '\t' then ['\\', 't']
  else if c < ' ' then ['\\', 'u', '0', '0', hexChar (c.toNat / 16), hexChar (c.toNat % 16)]
  else [c]

/-- A string as written, its quotes included. -/
def stringText (s : String) : List Char := '"' :: (s.toList.flatMap charText ++ ['"'])

mutual

/-- A value as written, unless a decimal is in it. -/
def valueText? : Json → Option (List Char)
  | null => some ['n', 'u', 'l', 'l']
  | bool true => some ['t', 'r', 'u', 'e']
  | bool false => some ['f', 'a', 'l', 's', 'e']
  | integer n => some (Text.decimal n).toList
  | decimal _ => none
  | string s => some (stringText s)
  | array [] => some ['[', ']']
  | array (item :: rest) => do
    return '[' :: ((← valueText? item) ++ (← itemsText? rest))
  | object [] => some ['{', '}']
  | object ((name, value) :: rest) => do
    return '{' :: (stringText name ++ ':' :: ((← valueText? value) ++ (← fieldsText? rest)))

/-- The further items of an array as written, up to its bracket. -/
def itemsText? : List Json → Option (List Char)
  | [] => some [']']
  | item :: rest => do return ',' :: ((← valueText? item) ++ (← itemsText? rest))

/-- The further fields of an object as written, up to its brace. -/
def fieldsText? : List (String × Json) → Option (List Char)
  | [] => some ['}']
  | (name, value) :: rest => do
    return ',' :: (stringText name ++ ':' :: ((← valueText? value) ++ (← fieldsText? rest)))

end

end Json.Writer

/-- The text of a value, unless a decimal is in it. -/
def Json.toText? (j : Json) : Option String := (Json.Writer.valueText? j).map String.ofList

end EventTrace
