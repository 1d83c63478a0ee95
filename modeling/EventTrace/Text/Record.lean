/-!
# Record — values as shown to a person

A value is shown by its name and its fields in braces. A value that keeps
further fields to itself ends in two dots.
-/

namespace EventTrace

namespace Text

/-- A field and its value as shown. -/
def shownField (field : String × String) : String := field.1 ++ ": " ++ field.2

/-- A name with all of its fields. -/
def record (name : String) (fields : List (String × String)) : String :=
  name ++ " \x7b " ++ ", ".intercalate (fields.map shownField) ++ " \x7d"

/-- A name with some of its fields. -/
def openRecord (name : String) (fields : List (String × String)) : String :=
  name ++ " \x7b " ++ ", ".intercalate (fields.map shownField ++ [".."]) ++ " \x7d"

/-- Items in brackets. -/
def listing (items : List String) : String := "[" ++ ", ".intercalate items ++ "]"

/-- Keys and their values in braces. -/
def mapping (rows : List (String × String)) : String :=
  "\x7b" ++ ", ".intercalate (rows.map shownField) ++ "\x7d"

end Text

end EventTrace
