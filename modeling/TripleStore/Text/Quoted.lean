import TripleStore.Text.Invisible

/-!
# Quoted texts

A quoted text stands between double quotes. Quotes and backslashes are escaped,
the common controls have letters, and every other character without a glyph is
written as `\u` with its code point in braces. All else stands as it is.
-/

namespace TripleStore.Text

def hexDigits (n : Nat) : String := String.ofList (Nat.toDigits 16 n)

def escaped (c : Char) : String :=
  match c with
  | '"' => "\\\""
  | '\\' => "\\\\"
  | '\t' => "\\t"
  | '\n' => "\\n"
  | '\r' => "\\r"
  | '\x00' => "\\0"
  | c =>
    if isInvisible c then
      "\\u\x7b" ++ hexDigits c.toNat ++ "\x7d" else c.toString

def quoted (text : String) : String :=
  "\"" ++ String.join (text.toList.map escaped) ++ "\""

end TripleStore.Text
