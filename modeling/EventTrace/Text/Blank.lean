/-!
# Blank — text without visible content

A name counts as given only if it has more than white space. White space is
the Unicode property of that name.
-/

namespace EventTrace

namespace Text

/-- The ranges of code points with the property White_Space, ends included. -/
def whiteSpace : List (Nat × Nat) :=
  [(0x09, 0x0d), (0x20, 0x20), (0x85, 0x85), (0xa0, 0xa0), (0x1680, 0x1680), (0x2000, 0x200a),
    (0x2028, 0x2029), (0x202f, 0x202f), (0x205f, 0x205f), (0x3000, 0x3000)]

/-- Whether a character is white space. -/
def isWhiteSpace (c : Char) : Bool :=
  whiteSpace.any fun range => range.1 ≤ c.toNat && c.toNat ≤ range.2

/-- Whether a text has no more than white space. -/
def isBlank (s : String) : Bool := s.toList.all isWhiteSpace

end Text

end EventTrace
