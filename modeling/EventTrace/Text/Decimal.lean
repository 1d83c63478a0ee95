/-!
# Decimal — whole numbers in digits

A whole number has one written form: a minus sign for a negative one, then
its digits without a leading zero. `decimal?` reads that form and nothing
else, so a plus sign, a blank, a leading zero and a negative zero are all
refused.
-/

namespace EventTrace

namespace Text

/-! ## Writing -/

/-- The digit of a value below ten. -/
def digitChar (d : Nat) : Char := Char.ofNat ('0'.toNat + d)

/-- The digits of a natural number, the leading one first. -/
def digits (n : Nat) : List Char :=
  if n < 10 then [digitChar n] else digits (n / 10) ++ [digitChar (n % 10)]

/-- The written form of a whole number. -/
def decimal : Int → String
  | .ofNat n => String.ofList (digits n)
  | .negSucc n => String.ofList ('-' :: digits (n + 1))

/-! ## Reading -/

/-- The value of a digit. -/
def digit? (c : Char) : Option Nat :=
  if '0' ≤ c ∧ c ≤ '9' then some (c.toNat - '0'.toNat) else none

/-- The number that further digits make of the one read so far. -/
def continued? : Nat → List Char → Option Nat
  | soFar, [] => some soFar
  | soFar, c :: rest => (digit? c).bind fun d => continued? (10 * soFar + d) rest

/-- The number with some digits, of which the first is not zero unless it is
the only one. -/
def natural? : List Char → Option Nat
  | [] => none
  | c :: rest => if c = '0' ∧ rest ≠ [] then none else continued? 0 (c :: rest)

/-- The whole number with a written form. -/
def decimal? (s : String) : Option Int :=
  match s.toList with
  | '-' :: rest => (natural? rest).bind fun n => if n = 0 then none else some (-n)
  | chars => (natural? chars).map Int.ofNat

end Text

end EventTrace
