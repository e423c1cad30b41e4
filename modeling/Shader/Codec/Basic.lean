import Shader.Constant
import Shader.Json

/-!
Reading the parts of a document from JSON.

A choice is an object with its name as the only key. One without parts has null there, or is its name alone. A record
is an object; a member the record does not know is ignored, even if its value cannot be read, and a member it knows
may stand there only once. A member that may be absent can be left out or be null. A record may also be an array of
its members in their order, and then none is left out. Numbers must be whole and in range.
-/
namespace Shader

/-- Why a document cannot be read. -/
inductive DecodeError where
  | malformed
  | repeatedConstant (repeated : Repeated)
  deriving DecidableEq

/-- The result of reading. -/
abbrev Decoded (α : Type) := Except DecodeError α

namespace Json

/-- A whole number below `bound`. -/
def asNatBelow (bound : Nat) : Json → Decoded Nat
  | .int value => if 0 ≤ value ∧ value < bound then .ok value.toNat else .error .malformed
  | _ => .error .malformed

/-- A position in a table. -/
def asIndex (json : Json) : Decoded Nat := json.asNatBelow 0x100000000

def asWord (json : Json) : Decoded UInt32 := do
  return UInt32.ofNat (← json.asNatBelow 0x100000000)

def asHalfWord (json : Json) : Decoded UInt16 := do
  return UInt16.ofNat (← json.asNatBelow 0x10000)

def asInt32 : Json → Decoded Int32
  | .int value =>
    if -0x80000000 ≤ value ∧ value < 0x80000000 then .ok (Int32.ofInt value) else .error .malformed
  | _ => .error .malformed

def asBool : Json → Decoded Bool
  | .bool value => .ok value
  | _ => .error .malformed

def asText : Json → Decoded String
  | .str value => .ok value
  | _ => .error .malformed

/-- An array whose items are read one by one. -/
def asList {α : Type} (decode : Json → Decoded α) : Json → Decoded (List α)
  | .arr items => items.mapM decode
  | _ => .error .malformed

/-- A value or null. -/
def asOption {α : Type} (decode : Json → Decoded α) : Json → Decoded (Option α)
  | .null => .ok none
  | json => do return some (← decode json)

/-- The name of a choice without parts. -/
def asName : Json → Decoded String
  | .str name | .obj [(name, .null)] => .ok name
  | _ => .error .malformed

/-- A member of an enumeration, by its spelling. -/
def asMember {α : Type} [Spelled α] (json : Json) : Decoded α := do
  match Spelled.read? (← json.asName) with
  | some value => return value
  | none => .error .malformed

/-- The spelling of a member of an enumeration. -/
def ofMember {α : Type} [Spelled α] (value : α) : Json := .str (spelling value)

/-- A choice with parts: its name and the parts. -/
def ofVariant (name : String) (parts : Json) : Json := .obj [(name, parts)]

/-- The name and the parts of a choice that has parts. -/
def asVariant : Json → Decoded (String × Json)
  | .obj [variant] => .ok variant
  | _ => .error .malformed

/-- The members of a record that knows the given names. -/
def asRecord (known : List String) : Json → Decoded (List (String × Json))
  | .obj members =>
    if known.all fun name => decide ((members.filter (·.1 == name)).length ≤ 1) then .ok members
    else .error .malformed
  | .arr items => if items.length = known.length then .ok (known.zip items) else .error .malformed
  | _ => .error .malformed

/-- A member that must be there. -/
def field {α : Type} (members : List (String × Json)) (name : String) (decode : Json → Decoded α) :
    Decoded α :=
  match members.lookup name with
  | some json => decode json
  | none => .error .malformed

/-- A member that may be left out or be null. -/
def optionalField {α : Type} (members : List (String × Json)) (name : String)
    (decode : Json → Decoded α) : Decoded (Option α) :=
  match members.lookup name with
  | some json => json.asOption decode
  | none => .ok none

end Json

def StructId.toJson (id : StructId) : Json := .nat id.index
def StructId.ofJson (json : Json) : Decoded StructId := return ⟨← json.asIndex⟩
def ConstId.toJson (id : ConstId) : Json := .nat id.index
def ConstId.ofJson (json : Json) : Decoded ConstId := return ⟨← json.asIndex⟩
def ValueId.toJson (id : ValueId) : Json := .nat id.index
def ValueId.ofJson (json : Json) : Decoded ValueId := return ⟨← json.asIndex⟩
def InstId.toJson (id : InstId) : Json := .nat id.index
def InstId.ofJson (json : Json) : Decoded InstId := return ⟨← json.asIndex⟩
def BlockId.toJson (id : BlockId) : Json := .nat id.index
def BlockId.ofJson (json : Json) : Decoded BlockId := return ⟨← json.asIndex⟩
def FuncId.toJson (id : FuncId) : Json := .nat id.index
def FuncId.ofJson (json : Json) : Decoded FuncId := return ⟨← json.asIndex⟩

end Shader
