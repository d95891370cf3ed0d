import GraphHom.Text.Unprintable

/-!
# Quoted texts

A text is quoted between double quotes. The quote and the backslash are escaped by a backslash, some
control characters by a letter of their own, and every other unprintable character by its code point
in hexadecimal digits between braces.
-/

namespace GraphHom

/-- One character inside a quoted text. -/
def quoteChar (c : Char) : String :=
  if c = '"' then "\\\""
  else if c = '\\' then "\\\\"
  else if c = '\t' then "\\t"
  else if c = '\r' then "\\r"
  else if c = '\n' then "\\n"
  else if c.toNat = 0 then "\\0"
  else if isUnprintable c then "\\u\x7b" ++ String.ofList (Nat.toDigits 16 c.toNat) ++ "\x7d"
  else c.toString

/-- A text between quotes. -/
def quote (text : String) : String := "\"" ++ String.join (text.toList.map quoteChar) ++ "\""

end GraphHom
