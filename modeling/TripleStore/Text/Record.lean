/-!
# Texts of records

The one-line text that shows a value is the type's name and then its fields in
braces. Truth values are spelled out, there and wherever one is stored as a
text.
-/

namespace TripleStore.Text

def record (name : String) (fields : List (String × String)) : String :=
  name ++ " \x7b " ++
    ", ".intercalate (fields.map fun f => f.1 ++ ": " ++ f.2) ++ " \x7d"

def truth (b : Bool) : String := if b then "true" else "false"

def truthOf? : String → Option Bool
  | "true" => some true
  | "false" => some false
  | _ => none

end TripleStore.Text
