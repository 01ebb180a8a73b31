import Highlighting.Text.Blank

/-!
Pattern priorities.

A pattern of a highlights query may set a property `priority`. Its value is a decimal number below
2^32, with an optional plus sign and blanks around it; any other value counts as not set.
-/

namespace Highlighting.Priority

/-- The priority of patterns that set none. -/
def standard : Nat := 100

/-- The value of decimal digits; `none` for any other list of characters and for the empty one. -/
def ofDigits? (cs : List Char) : Option Nat :=
  if cs ≠ [] ∧ cs.all Char.isDigit then
    some (cs.foldl (fun n c => 10 * n + (c.toNat - '0'.toNat)) 0)
  else none

/-- Reads the value of a priority property. -/
def read? (value : String) : Option Nat :=
  let digits := match trimBlank value.toList with
    | '+' :: rest => rest
    | cs => cs
  (ofDigits? digits).filter (· < Nat.pow 2 32)

/-- The priority that a pattern's properties give it. Only the first property of that name counts,
also if its value is missing or malformed. -/
def ofSettings (settings : List (String × Option String)) : Nat :=
  match settings.lookup "priority" with
  | some (some value) => (read? value).getD standard
  | _ => standard

end Highlighting.Priority
