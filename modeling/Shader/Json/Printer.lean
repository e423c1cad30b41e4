import Shader.Json

/-!
Writing JSON text: on one line without blanks, or indented by two blanks a level.
-/
namespace Shader.Json

/-- A control character as an escape of four hexadecimal digits. -/
def controlEscape (c : Char) : String :=
  let digits := Nat.toDigits 16 c.toNat
  "\\u" ++ String.ofList (List.replicate (4 - digits.length) '0' ++ digits)

/-- One character of a string. -/
def escape (c : Char) : String :=
  if c = '"' then "\\\""
  else if c = '\\' then "\\\\"
  else if c = '\x08' then "\\b"
  else if c = '\x0c' then "\\f"
  else if c = '\n' then "\\n"
  else if c = '\r' then "\\r"
  else if c = '\t' then "\\t"
  else if c.toNat < 0x20 then controlEscape c
  else c.toString

/-- A string with its quotes. -/
def quote (text : String) : String :=
  "\"" ++ text.foldl (fun written c => written ++ escape c) "" ++ "\""

mutual

/-- A value on one line. -/
def compact : Json → String
  | .null => "null"
  | .bool true => "true"
  | .bool false => "false"
  | .int value => toString value
  | .decimal text | .raw text => text
  | .str value => quote value
  | .arr items => "[" ++ ",".intercalate (compactItems items) ++ "]"
  | .obj members => "\x7b" ++ ",".intercalate (compactMembers members) ++ "\x7d"

def compactItems : List Json → List String
  | [] => []
  | item :: items => item.compact :: compactItems items

def compactMembers : List (String × Json) → List String
  | [] => []
  | (key, value) :: members => (quote key ++ ":" ++ value.compact) :: compactMembers members

end

/-- Lines between an opening and a closing bracket, each indented one level more than `indent`. -/
def bracketed (opening closing : String) (indent : String) (lines : List String) : String :=
  if lines.isEmpty then opening ++ closing
  else
    opening ++ "\n" ++ ",\n".intercalate (lines.map fun line => indent ++ "  " ++ line) ++ "\n" ++
      indent ++ closing

mutual

/-- A value with its parts on lines of their own, inside lines indented by `indent`. -/
def prettyAt (indent : String) : Json → String
  | .null => "null"
  | .bool true => "true"
  | .bool false => "false"
  | .int value => toString value
  | .decimal text | .raw text => text
  | .str value => quote value
  | .arr items => bracketed "[" "]" indent (prettyItems indent items)
  | .obj members => bracketed "\x7b" "\x7d" indent (prettyMembers indent members)

def prettyItems (indent : String) : List Json → List String
  | [] => []
  | item :: items => item.prettyAt (indent ++ "  ") :: prettyItems indent items

def prettyMembers (indent : String) : List (String × Json) → List String
  | [] => []
  | (key, value) :: members =>
    (quote key ++ ": " ++ value.prettyAt (indent ++ "  ")) :: prettyMembers indent members

end

/-- A value with its parts on lines of their own. -/
def pretty (value : Json) : String := value.prettyAt ""

end Shader.Json
