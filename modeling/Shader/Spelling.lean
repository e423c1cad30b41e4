/-!
Enumerations with a spelling, and the shapes in which diagnostics write a value.

A value in a diagnostic is written on one line: a bare name, a name with its parts in
parentheses, or a name with labelled parts in braces.
-/
namespace Shader

/-- A finite choice whose members are written by name. -/
class Spelled (α : Type) where
  members : List α
  spelling : α → String

export Spelled (spelling)

/-- The first member written `text`. -/
def Spelled.read? {α : Type} [Spelled α] (text : String) : Option α :=
  (Spelled.members : List α).find? fun member => spelling member == text

namespace Text

/-- A name with unlabelled parts: `Name(a, b)`. -/
def tuple (name : String) (parts : List String) : String :=
  name ++ "(" ++ ", ".intercalate parts ++ ")"

/-- A name with labelled parts, in braces. -/
def record (name : String) (fields : List (String × String)) : String :=
  name ++ " \x7b " ++ ", ".intercalate (fields.map fun (label, part) => label ++ ": " ++ part) ++ " \x7d"

/-- Parts in brackets: `[a, b]`. -/
def sequence (parts : List String) : String :=
  "[" ++ ", ".intercalate parts ++ "]"

end Text
end Shader
