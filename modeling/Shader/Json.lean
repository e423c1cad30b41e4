/-!
JSON values.

Whole numbers are kept apart from numbers written with a fraction or an exponent, and the members of
an object keep the order they were written in. A part that cannot be read is kept as it is written.
-/
namespace Shader

/-- A JSON value. A number that is not written as a whole number keeps its text. -/
inductive Json where
  | null
  | bool (value : Bool)
  | int (value : Int)
  | decimal (text : String)
  | str (value : String)
  | arr (items : List Json)
  | obj (members : List (String × Json))
  | raw (text : String)

namespace Json

/-- A natural number. -/
def nat (value : Nat) : Json := .int value

/-- A 32-bit word. -/
def word (value : UInt32) : Json := .int value.toNat

/-- A value that may be absent. -/
def ofOption {α : Type} (encode : α → Json) : Option α → Json
  | none => .null
  | some value => encode value

/-- An array of encoded values. -/
def ofList {α : Type} (encode : α → Json) (values : List α) : Json := .arr (values.map encode)

mutual

/-- Whether every part of a value could be read. -/
def isWhole : Json → Bool
  | .arr items => allWhole items
  | .obj members => allMembersWhole members
  | .raw _ => false
  | _ => true

def allWhole : List Json → Bool
  | [] => true
  | item :: items => item.isWhole && allWhole items

def allMembersWhole : List (String × Json) → Bool
  | [] => true
  | (_, value) :: members => value.isWhole && allMembersWhole members

end

end Json
end Shader
