import Shader.Codec.Basic

/-!
Types and struct definitions as JSON.
-/
namespace Shader

open Json (field optionalField asList asWord asMember asBool asText)

def ArrayCount.toJson : ArrayCount → Json
  | .constant count => .ofVariant "Constant" (.word count)
  | .runtime => .str "Runtime"

def ArrayCount.ofJson : Json → Decoded ArrayCount
  | .str "Runtime" | .obj [("Runtime", .null)] => .ok .runtime
  | .obj [("Constant", count)] => return .constant (← count.asWord)
  | _ => .error .malformed

namespace Ty

/-- The types without parts, by their names. -/
def simple : String → Decoded Ty
  | "Void" => .ok .void
  | "Bool" => .ok .bool
  | "I32" => .ok .i32
  | "U32" => .ok .u32
  | "F32" => .ok .f32
  | "F16" => .ok .f16
  | _ => .error .malformed

def toJson : Ty → Json
  | .void => .str "Void"
  | .bool => .str "Bool"
  | .i32 => .str "I32"
  | .u32 => .str "U32"
  | .f32 => .str "F32"
  | .f16 => .str "F16"
  | .vector elem width =>
    .ofVariant "Vector" (.obj [("elem", elem.toJson), ("width", .word width)])
  | .matrix elem columns rows =>
    .ofVariant "Matrix"
      (.obj [("elem", elem.toJson), ("columns", .word columns), ("rows", .word rows)])
  | .array elem count stride =>
    .ofVariant "Array"
      (.obj [("elem", elem.toJson), ("count", count.toJson), ("stride", .word stride)])
  | .atomic inner => .ofVariant "Atomic" inner.toJson
  | .pointer space store access =>
    .ofVariant "Pointer"
      (.obj [("address_space", .ofMember space), ("store", store.toJson), ("access", .ofMember access)])
  | .struct id => .ofVariant "Struct" id.toJson
  | .sampler kind => .ofVariant "Sampler" (.ofMember kind)
  | .sampledTexture dim sampled =>
    .ofVariant "SampledTexture" (.obj [("dim", .ofMember dim), ("sampled", sampled.toJson)])
  | .multisampledTexture dim sampled =>
    .ofVariant "MultisampledTexture" (.obj [("dim", .ofMember dim), ("sampled", sampled.toJson)])
  | .depthTexture dim => .ofVariant "DepthTexture" (.obj [("dim", .ofMember dim)])
  | .depthMultisampledTexture dim =>
    .ofVariant "DepthMultisampledTexture" (.obj [("dim", .ofMember dim)])
  | .storageTexture dim format access sampled =>
    .ofVariant "StorageTexture"
      (.obj [("dim", .ofMember dim), ("format", .ofMember format), ("access", .ofMember access),
        ("sampled", sampled.toJson)])
  | .inputAttachment sampled => .ofVariant "InputAttachment" (.obj [("sampled", sampled.toJson)])
  | .sampledImage image => .ofVariant "SampledImage" image.toJson

/-- The names of the parts of a type with labelled parts. -/
def partNames : String → List String
  | "Vector" => ["elem", "width"]
  | "Matrix" => ["elem", "columns", "rows"]
  | "Array" => ["elem", "count", "stride"]
  | "Pointer" => ["address_space", "store", "access"]
  | "SampledTexture" | "MultisampledTexture" => ["dim", "sampled"]
  | "DepthTexture" | "DepthMultisampledTexture" => ["dim"]
  | "StorageTexture" => ["dim", "format", "access", "sampled"]
  | "InputAttachment" => ["sampled"]
  | _ => []

/-- A type with labelled parts, and the type in each part that is one. -/
def ofMembers (name : String) (members : List (String × Json)) (part : String → Decoded Ty) : Decoded Ty :=
  match name with
  | "Vector" => return .vector (← part "elem") (← field members "width" asWord)
  | "Matrix" =>
    return .matrix (← part "elem") (← field members "columns" asWord)
      (← field members "rows" asWord)
  | "Array" =>
    return .array (← part "elem") (← field members "count" ArrayCount.ofJson)
      (← field members "stride" asWord)
  | "Pointer" =>
    return .pointer (← field members "address_space" asMember) (← part "store")
      (← field members "access" asMember)
  | "SampledTexture" => return .sampledTexture (← field members "dim" asMember) (← part "sampled")
  | "MultisampledTexture" =>
    return .multisampledTexture (← field members "dim" asMember) (← part "sampled")
  | "DepthTexture" => return .depthTexture (← field members "dim" asMember)
  | "DepthMultisampledTexture" => return .depthMultisampledTexture (← field members "dim" asMember)
  | "StorageTexture" =>
    return .storageTexture (← field members "dim" asMember)
      (← field members "format" asMember) (← field members "access" asMember)
      (← part "sampled")
  | "InputAttachment" => return .inputAttachment (← part "sampled")
  | _ => .error .malformed

mutual

def ofJson : Json → Decoded Ty
  | .str name => simple name
  | .obj [(name, json)] =>
    match name with
    | "Atomic" => return .atomic (← ofJson json)
    | "SampledImage" => return .sampledImage (← ofJson json)
    | "Struct" => return .struct (← StructId.ofJson json)
    | "Sampler" => return .sampler (← json.asMember)
    | _ =>
      match json with
      | .null => simple name
      | _ => do
        let members ← json.asRecord (partNames name)
        ofMembers name members fun key => part key (partNames name) json
  | _ => .error .malformed
termination_by structural json => json

/-- The type in a part of a record that knows the given names. -/
def part (key : String) (known : List String) : Json → Decoded Ty
  | .obj members => memberOf key members
  | .arr items => itemOf key known items
  | _ => .error .malformed
termination_by structural json => json

def memberOf (key : String) : List (String × Json) → Decoded Ty
  | [] => .error .malformed
  | (name, json) :: members => if name == key then ofJson json else memberOf key members
termination_by structural members => members

def itemOf (key : String) : List String → List Json → Decoded Ty
  | name :: known, json :: items => if name == key then ofJson json else itemOf key known items
  | _, _ => .error .malformed
termination_by structural _ items => items

end

end Ty

def Member.toJson (member : Member) : Json :=
  .obj [("name", .ofOption .str member.name), ("ty", member.ty.toJson), ("offset", .word member.offset)]

def Member.ofJson (json : Json) : Decoded Member := do
  let members ← json.asRecord ["name", "ty", "offset"]
  return ⟨← optionalField members "name" asText, ← field members "ty" Ty.ofJson,
    ← field members "offset" asWord⟩

def StructDef.toJson (definition : StructDef) : Json :=
  .obj [("name", .ofOption .str definition.name), ("members", .ofList Member.toJson definition.members),
    ("block", .bool definition.block)]

def StructDef.ofJson (json : Json) : Decoded StructDef := do
  let members ← json.asRecord ["name", "members", "block"]
  return ⟨← optionalField members "name" asText,
    ← field members "members" (asList Member.ofJson),
    ← field members "block" asBool⟩

end Shader
