import EventTrace.Text.Unseen
/-!
# Quoted — text between quotation marks

A text is shown between double quotes. A quote and a backslash in it take a
backslash; a line feed, a carriage return, a tab and a null have letters of
their own; and a character that shows nothing of its own is written by its
number.
-/

namespace EventTrace

namespace Text

/-- A number in lower-case hexadecimal digits. -/
def hexadecimal (n : Nat) : String := String.ofList (Nat.toDigits 16 n)

/-- A character as shown between quotation marks. -/
def quotedChar (c : Char) : String :=
  if c = '"' then "\\\""
  else if c = '\\' then "\\\\"
  else if c = '\n' then "\\n"
  else if c = '\r' then "\\r"
  else if c = '\t' then "\\t"
  else if c.toNat = 0 then "\\0"
  else if isUnseen c then "\\u\x7b" ++ hexadecimal c.toNat ++ "\x7d"
  else c.toString

/-- A text as shown between quotation marks. -/
def quoted (s : String) : String := "\"" ++ String.join (s.toList.map quotedChar) ++ "\""

end Text

end EventTrace
