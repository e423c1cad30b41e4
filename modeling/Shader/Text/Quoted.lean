import Shader.Text.Visible

/-!
Text in double quotes, as diagnostics write it: the usual one-letter escapes, and the code point in
hexadecimal for every other character that has no visible form.
-/
namespace Shader.Text

/-- A code point in braces, in small hexadecimal digits without leading zeros. -/
def codePoint (c : Char) : String :=
  "\\u\x7b" ++ String.ofList (Nat.toDigits 16 c.toNat) ++ "\x7d"

/-- One character between double quotes. -/
def escaped (c : Char) : String :=
  if c = '\x00' then "\\0"
  else if c = '\t' then "\\t"
  else if c = '\r' then "\\r"
  else if c = '\n' then "\\n"
  else if c = '\\' then "\\\\"
  else if c = '"' then "\\\""
  else if isVisible c then c.toString
  else codePoint c

/-- The text between double quotes. -/
def quoted (text : String) : String :=
  "\"" ++ String.join (text.toList.map escaped) ++ "\""

end Shader.Text
