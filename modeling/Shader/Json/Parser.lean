import Shader.Json.Scan

/-!
Reading JSON text.

A text holds one value, with nothing but blanks around it. Arrays and objects are read 127 deep. A part
that has the form of a value but cannot be read stays in the value as it is written, so that it does no
harm where nobody asks for it: an array or object nested deeper, a string with half of a surrogate pair, or
an object with such a key.
-/
namespace Shader.Json

mutual

/-- A value, with arrays and objects read at most `depth` deep. Each call takes one of `fuel`. -/
def readValue (fuel depth : Nat) (text : List Char) : Option (Json × List Char) :=
  match fuel with
  | 0 => none
  | fuel + 1 =>
    match skipBlanks text with
    | 'n' :: 'u' :: 'l' :: 'l' :: rest => some (.null, rest)
    | 't' :: 'r' :: 'u' :: 'e' :: rest => some (.bool true, rest)
    | 'f' :: 'a' :: 'l' :: 's' :: 'e' :: rest => some (.bool false, rest)
    | '"' :: rest =>
      match readString [] rest with
      | some (value, rest) => some (.str value, rest)
      | none => do
        let (passed, rest) ← scanString ['"'] rest
        return (ofPassed passed, rest)
    | '[' :: rest =>
      match depth with
      | 0 => scanValue ('[' :: rest)
      | depth + 1 =>
        match skipBlanks rest with
        | ']' :: rest => some (.arr [], rest)
        | items =>
          match readItems fuel depth [] items with
          | some (items, rest) => some (.arr items, rest)
          | none => none
    | '\x7b' :: rest =>
      match depth with
      | 0 => scanValue ('\x7b' :: rest)
      | depth + 1 =>
        match skipBlanks rest with
        | '\x7d' :: rest => some (.obj [], rest)
        | members =>
          match readMembers fuel depth [] members with
          | some (members, rest) => some (.obj members, rest)
          | none => scanValue ('\x7b' :: rest)
    | text => do
      let (numeral, rest) ← readNumeral text
      return (numeral.value, rest)

/-- The items of an array, at least one, and its closing bracket, after the items in `read`, which are in
reverse. -/
def readItems (fuel depth : Nat) (read : List Json) (text : List Char) :
    Option (List Json × List Char) :=
  match fuel with
  | 0 => none
  | fuel + 1 =>
    match readValue fuel depth text with
    | none => none
    | some (item, rest) =>
      match skipBlanks rest with
      | ',' :: rest => readItems fuel depth (item :: read) rest
      | ']' :: rest => some ((item :: read).reverse, rest)
      | _ => none

/-- The members of an object, at least one, and its closing brace, after the members in `read`, which are
in reverse. -/
def readMembers (fuel depth : Nat) (read : List (String × Json)) (text : List Char) :
    Option (List (String × Json) × List Char) :=
  match fuel with
  | 0 => none
  | fuel + 1 =>
    match skipBlanks text with
    | '"' :: rest =>
      match readString [] rest with
      | none => none
      | some (key, rest) =>
        match skipBlanks rest with
        | ':' :: rest =>
          match readValue fuel depth rest with
          | none => none
          | some (value, rest) =>
            match skipBlanks rest with
            | ',' :: rest => readMembers fuel depth ((key, value) :: read) rest
            | '\x7d' :: rest => some (((key, value) :: read).reverse, rest)
            | _ => none
        | _ => none
    | _ => none

end

/-- How deep arrays and objects are read. -/
def maxDepth : Nat := 127

/-- The value a text holds. -/
def parse? (text : String) : Option Json := do
  let chars := text.toList
  let (value, rest) ← readValue (2 * chars.length + 2) maxDepth chars
  if (skipBlanks rest).isEmpty then return value else none

/-- The value a text holds, if every part of it can be read. -/
def parseWhole? (text : String) : Option Json := (parse? text).filter isWhole

end Shader.Json
