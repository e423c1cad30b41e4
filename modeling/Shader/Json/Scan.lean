import Shader.Json.Token

/-!
Passing over a JSON value without reading it.

Only the form of the text counts. A code unit in a string need not be part of a character, a number may
have any size, and arrays and objects may nest as deep as they like: the ones that are still open are kept
in a list, innermost first. What was passed over is kept in reverse.
-/
namespace Shader.Json

/-- Pass over the rest of a string after its opening quote. -/
def scanString (passed : List Char) : List Char → Option (List Char × List Char)
  | '"' :: rest => some ('"' :: passed, rest)
  | '\\' :: 'u' :: a :: b :: c :: d :: rest =>
    if (codeUnit? a b c d).isSome then
      scanString (d :: c :: b :: a :: 'u' :: '\\' :: passed) rest
    else none
  | '\\' :: c :: rest =>
    if (simpleEscape? c).isSome then scanString (c :: '\\' :: passed) rest else none
  | c :: rest => if c.toNat < 0x20 then none else scanString (c :: passed) rest
  | [] => none

/-- Pass over blanks. -/
def scanBlanks (passed : List Char) : List Char → List Char × List Char
  | [] => (passed, [])
  | c :: rest => if isBlank c then scanBlanks (c :: passed) rest else (passed, c :: rest)

/-- Pass over a value that has no parts. -/
def scanScalar (passed : List Char) : List Char → Option (List Char × List Char)
  | 'n' :: 'u' :: 'l' :: 'l' :: rest => some ('l' :: 'l' :: 'u' :: 'n' :: passed, rest)
  | 't' :: 'r' :: 'u' :: 'e' :: rest => some ('e' :: 'u' :: 'r' :: 't' :: passed, rest)
  | 'f' :: 'a' :: 'l' :: 's' :: 'e' :: rest =>
    some ('e' :: 's' :: 'l' :: 'a' :: 'f' :: passed, rest)
  | '"' :: rest => scanString ('"' :: passed) rest
  | text => do
    let (numeral, rest) ← readNumeral text
    return (numeral.text.reverseAux passed, rest)

/-- What a value can be part of. -/
inductive Enclosing where
  | array
  | object

def Enclosing.closing : Enclosing → Char
  | .array => ']'
  | .object => '\x7d'

/-- Pass over what stands before a value: in an object its key and a colon. -/
def Enclosing.scanLabel (passed : List Char) (text : List Char) :
    Enclosing → Option (List Char × List Char)
  | .array => some (passed, text)
  | .object =>
    match scanBlanks passed text with
    | (passed, '"' :: rest) => do
      let (passed, rest) ← scanString ('"' :: passed) rest
      match scanBlanks passed rest with
      | (passed, ':' :: rest) => return (':' :: passed, rest)
      | _ => none
    | _ => none

/-- What has to come next: a value, the first value of an array or object or its end, or what follows a
value. -/
inductive Awaited where
  | value
  | first
  | next

/-- Pass over the rest of a value, given the arrays and objects that are open and what has to come next.
Each step takes one of `fuel`. -/
def scan (fuel : Nat) (enclosing : List Enclosing) (awaited : Awaited) (passed text : List Char) :
    Option (List Char × List Char) :=
  match fuel with
  | 0 => none
  | fuel + 1 =>
    match awaited, enclosing with
    | .value, enclosing =>
      match scanBlanks passed text with
      | (passed, '[' :: rest) => scan fuel (.array :: enclosing) .first ('[' :: passed) rest
      | (passed, '\x7b' :: rest) => scan fuel (.object :: enclosing) .first ('\x7b' :: passed) rest
      | (passed, rest) =>
        match scanScalar passed rest with
        | some (passed, rest) => scan fuel enclosing .next passed rest
        | none => none
    | .first, [] | .next, [] => some (passed, text)
    | .first, innermost :: outer =>
      match scanBlanks passed text with
      | (_, []) => none
      | (passed, c :: rest) =>
        if c = innermost.closing then scan fuel outer .next (c :: passed) rest
        else
          match innermost.scanLabel passed (c :: rest) with
          | some (passed, rest) => scan fuel enclosing .value passed rest
          | none => none
    | .next, innermost :: outer =>
      match scanBlanks passed text with
      | (_, []) => none
      | (passed, c :: rest) =>
        if c = innermost.closing then scan fuel outer .next (c :: passed) rest
        else if c = ',' then
          match innermost.scanLabel (c :: passed) rest with
          | some (passed, rest) => scan fuel enclosing .value passed rest
          | none => none
        else none

/-- A value as it is written, from what was passed over. -/
def ofPassed (passed : List Char) : Json := .raw (String.ofList passed.reverse)

/-- The value at the front of a text as it is written. A step that passes no character is followed by one
that does, or is the last. -/
def scanValue (text : List Char) : Option (Json × List Char) := do
  let (passed, rest) ← scan (2 * text.length + 2) [] .value [] text
  return (ofPassed passed, rest)

end Shader.Json
