import Shader.Codec.Ty

/-!
Constants and pools as JSON.

Reading a pool stores each constant in its canonical form at the position it was written at, so a
constant that was written before is an error.
-/
namespace Shader

open Json (field asList asWord)

def Value.toJson : Value → Json
  | .constant id => .ofVariant "Constant" id.toJson
  | .ssa id => .ofVariant "Ssa" id.toJson
  | .literal word => .ofVariant "Literal" (.word word)

def Value.ofJson (json : Json) : Decoded Value := do
  match ← json.asVariant with
  | ("Constant", id) => return .constant (← ConstId.ofJson id)
  | ("Ssa", id) => return .ssa (← ValueId.ofJson id)
  | ("Literal", word) => return .literal (← word.asWord)
  | _ => .error .malformed

def Scalar.toJson : Scalar → Json
  | .bool value => .ofVariant "Bool" (.bool value)
  | .i32 value => .ofVariant "I32" (.int value.toInt)
  | .u32 value => .ofVariant "U32" (.word value)
  | .f32 bits => .ofVariant "F32" (.word bits)
  | .f16 bits => .ofVariant "F16" (.nat bits.toNat)

def Scalar.ofJson (json : Json) : Decoded Scalar := do
  match ← json.asVariant with
  | ("Bool", value) => return .bool (← value.asBool)
  | ("I32", value) => return .i32 (← value.asInt32)
  | ("U32", value) => return .u32 (← value.asWord)
  | ("F32", bits) => return .f32 (← bits.asWord)
  | ("F16", bits) => return .f16 (← bits.asHalfWord)
  | _ => .error .malformed

namespace Constant

def toJson : Constant → Json
  | .scalar value => .ofVariant "Scalar" value.toJson
  | .composite ty elements =>
    .ofVariant "Composite" (.obj [("ty", ty.toJson), ("elements", .ofList ConstId.toJson elements)])
  | .splat ty element count =>
    .ofVariant "Splat" (.obj [("ty", ty.toJson), ("element", element.toJson), ("count", .word count)])

def ofJson (json : Json) : Decoded Constant := do
  match ← json.asVariant with
  | ("Scalar", value) => return .scalar (← Scalar.ofJson value)
  | ("Composite", parts) => do
    let members ← parts.asRecord ["ty", "elements"]
    return .composite (← field members "ty" Ty.ofJson)
      (← field members "elements" (asList ConstId.ofJson))
  | ("Splat", parts) => do
    let members ← parts.asRecord ["ty", "element", "count"]
    return .splat (← field members "ty" Ty.ofJson) (← field members "element" ConstId.ofJson)
      (← field members "count" asWord)
  | _ => .error .malformed

end Constant

namespace Pool

def toJson (pool : Pool) : Json :=
  .obj [("items", .ofList Constant.toJson pool.items.toList)]

/-- The pool of the constants an array lists. -/
def ofItems (json : Json) : Decoded Pool := do
  match ofList (← json.asList Constant.ofJson) with
  | .ok pool => return pool
  | .error repeated => throw (.repeatedConstant repeated)

def ofJson (json : Json) : Decoded Pool := do
  field (← json.asRecord ["items"]) "items" ofItems

end Pool
end Shader
