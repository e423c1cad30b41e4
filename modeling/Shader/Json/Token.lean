import Shader.Json

/-!
The smallest parts of JSON text: blanks, strings and numerals.
-/
namespace Shader.Json

/-- The blanks JSON allows between tokens. -/
def isBlank (c : Char) : Bool := c = ' ' || c = '\t' || c = '\n' || c = '\r'

def skipBlanks (text : List Char) : List Char := text.dropWhile isBlank

/-- The value of a hexadecimal digit. -/
def hexDigit? (c : Char) : Option Nat :=
  if '0' ≤ c ∧ c ≤ '9' then some (c.toNat - '0'.toNat)
  else if 'a' ≤ c ∧ c ≤ 'f' then some (c.toNat - 'a'.toNat + 10)
  else if 'A' ≤ c ∧ c ≤ 'F' then some (c.toNat - 'A'.toNat + 10)
  else none

/-- The number four hexadecimal digits stand for. -/
def codeUnit? (a b c d : Char) : Option Nat := do
  return (← hexDigit? a) * 4096 + (← hexDigit? b) * 256 + (← hexDigit? c) * 16 + (← hexDigit? d)

/-- The character after a backslash that stands for one character. -/
def simpleEscape? : Char → Option Char
  | '"' => some '"'
  | '\\' => some '\\'
  | '/' => some '/'
  | 'b' => some '\x08'
  | 'f' => some '\x0c'
  | 'n' => some '\n'
  | 'r' => some '\r'
  | 't' => some '\t'
  | _ => none

/-- The rest of a string after its opening quote, with the characters read so far in reverse. A code
unit of the first half of a surrogate pair must be followed by the second half. -/
def readString (read : List Char) : List Char → Option (String × List Char)
  | '"' :: rest => some (String.ofList read.reverse, rest)
  | '\\' :: 'u' :: a :: b :: c :: d :: rest => do
    let unit ← codeUnit? a b c d
    if 0xD800 ≤ unit ∧ unit < 0xDC00 then
      match rest with
      | '\\' :: 'u' :: e :: f :: g :: h :: rest => do
        let low ← codeUnit? e f g h
        if 0xDC00 ≤ low ∧ low < 0xE000 then
          readString (Char.ofNat (0x10000 + (unit - 0xD800) * 0x400 + (low - 0xDC00)) :: read) rest
        else none
      | _ => none
    else if 0xDC00 ≤ unit ∧ unit < 0xE000 then none
    else readString (Char.ofNat unit :: read) rest
  | '\\' :: c :: rest => do readString ((← simpleEscape? c) :: read) rest
  | c :: rest => if c.toNat < 0x20 then none else readString (c :: read) rest
  | [] => none

/-- Split off the digits at the front. -/
def spanDigits (text : List Char) : List Char × List Char := text.span Char.isDigit

/-- The number decimal digits stand for. -/
def ofDigits (digits : List Char) : Nat :=
  digits.foldl (fun total digit => total * 10 + (digit.toNat - '0'.toNat)) 0

/-- The fraction of a number, if there is one: a point and at least one digit. -/
def readFraction : List Char → Option (List Char × List Char)
  | '.' :: rest =>
    match spanDigits rest with
    | ([], _) => none
    | (digits, rest) => some ('.' :: digits, rest)
  | text => some ([], text)

/-- The exponent of a number, if there is one: a mark, perhaps a sign, and at least one digit. -/
def readExponent (text : List Char) : Option (List Char × List Char) :=
  match text with
  | mark :: rest =>
    if mark = 'e' ∨ mark = 'E' then
      let (sign, rest) := match rest with
        | '+' :: rest => (['+'], rest)
        | '-' :: rest => (['-'], rest)
        | rest => ([], rest)
      match spanDigits rest with
      | ([], _) => none
      | (digits, rest) => some (mark :: sign ++ digits, rest)
    else some ([], text)
  | [] => some ([], [])

/-- A number as it is written. -/
structure Numeral where
  negative : Bool
  digits : List Char
  fraction : List Char
  exponent : List Char

namespace Numeral

def text (numeral : Numeral) : List Char :=
  (if numeral.negative then ['-'] else []) ++ numeral.digits ++ numeral.fraction ++ numeral.exponent

/-- The number a numeral stands for. Minus zero is not a whole number. -/
def value (numeral : Numeral) : Json :=
  let magnitude := ofDigits numeral.digits
  if numeral.fraction.isEmpty ∧ numeral.exponent.isEmpty ∧ ¬(numeral.negative ∧ magnitude = 0) then
    .int (if numeral.negative then -(magnitude : Int) else magnitude)
  else .decimal (String.ofList numeral.text)

end Numeral

/-- A numeral. Only a zero starts with a zero. -/
def readNumeral (text : List Char) : Option (Numeral × List Char) := do
  let (negative, unsigned) := match text with
    | '-' :: rest => (true, rest)
    | rest => (false, rest)
  let (digits, rest) := spanDigits unsigned
  if digits.isEmpty ∨ (digits.head? = some '0' ∧ digits.length > 1) then none
  let (fraction, rest) ← readFraction rest
  let (exponent, rest) ← readExponent rest
  return (⟨negative, digits, fraction, exponent⟩, rest)

end Shader.Json
