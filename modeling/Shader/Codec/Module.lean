import Shader.Codec.Inst
import Shader.Module

/-!
Modules as JSON.
-/
namespace Shader

open Json (field optionalField asList asMember asText)

namespace Origin

def toJson : Origin → Json
  | .result inst => .ofVariant "InstResult" inst.toJson
  | .functionParam function => .ofVariant "FunctionParam" function.toJson
  | .blockParam block => .ofVariant "BlockParam" block.toJson

def ofJson (json : Json) : Decoded Origin := do
  match ← json.asVariant with
  | ("InstResult", inst) => return .result (← InstId.ofJson inst)
  | ("FunctionParam", function) => return .functionParam (← FuncId.ofJson function)
  | ("BlockParam", block) => return .blockParam (← BlockId.ofJson block)
  | _ => .error .malformed

end Origin

def ValueDef.toJson (value : ValueDef) : Json :=
  .obj [("ty", value.ty.toJson), ("name", .ofOption .str value.name), ("origin", value.origin.toJson)]

def ValueDef.ofJson (json : Json) : Decoded ValueDef := do
  let members ← json.asRecord ["ty", "name", "origin"]
  return ⟨← field members "ty" Ty.ofJson, ← optionalField members "name" asText,
    ← field members "origin" Origin.ofJson⟩

/-- The three extents of a workgroup. -/
def workgroupToJson : UInt32 × UInt32 × UInt32 → Json
  | (x, y, z) => .arr [.word x, .word y, .word z]

def workgroupOfJson : Json → Decoded (UInt32 × UInt32 × UInt32)
  | .arr [x, y, z] => return (← x.asWord, ← y.asWord, ← z.asWord)
  | _ => .error .malformed

def Function.toJson (function : Function) : Json :=
  .obj [("name", .str function.name), ("params", .ofList ValueId.toJson function.params),
    ("return_type", function.returnType.toJson), ("stage", .ofMember function.stage),
    ("workgroup_size", .ofOption workgroupToJson function.workgroupSize),
    ("block", function.entry.toJson)]

def Function.ofJson (json : Json) : Decoded Function := do
  let members ← json.asRecord ["name", "params", "return_type", "stage", "workgroup_size", "block"]
  return ⟨← field members "name" asText,
    ← field members "params" (asList ValueId.ofJson),
    ← field members "return_type" Ty.ofJson, ← field members "stage" asMember,
    ← optionalField members "workgroup_size" workgroupOfJson,
    ← field members "block" BlockId.ofJson⟩

def Block.toJson (block : Block) : Json :=
  .obj [("insts", .ofList InstId.toJson block.insts), ("params", .ofList ValueId.toJson block.params),
    ("parent", .ofOption InstId.toJson block.parent), ("inbound", .ofList InstId.toJson block.inbound)]

def Block.ofJson (json : Json) : Decoded Block := do
  let members ← json.asRecord ["insts", "params", "parent", "inbound"]
  return ⟨← field members "insts" (asList InstId.ofJson),
    ← field members "params" (asList ValueId.ofJson),
    ← optionalField members "parent" InstId.ofJson,
    ← field members "inbound" (asList InstId.ofJson)⟩

namespace Module

def toJson (m : Module) : Json :=
  .obj [("structs", .ofList StructDef.toJson m.structs.toList), ("constants", m.constants.toJson),
    ("values", .ofList ValueDef.toJson m.values.toList), ("insts", .ofList Inst.toJson m.insts.toList),
    ("blocks", .ofList Block.toJson m.blocks.toList),
    ("functions", .ofList Function.toJson m.functions.toList)]

/-- A member that is read if it is there. -/
def present {α : Type} (members : List (String × Json)) (name : String) (decode : Json → Decoded α) :
    Decoded (Option α) :=
  match members.lookup name with
  | some json => do return some (← decode json)
  | none => .ok none

/-- The tables that are there are read, in the order of their names, before a missing one is missed; so
a repeated constant is reported even if a later table is missing. -/
def ofJson (json : Json) : Decoded Module := do
  let members ← json.asRecord ["structs", "constants", "values", "insts", "blocks", "functions"]
  let blocks ← present members "blocks" (asList Block.ofJson)
  let constants ← present members "constants" Pool.ofJson
  let functions ← present members "functions" (asList Function.ofJson)
  let insts ← present members "insts" (asList Inst.ofJson)
  let structs ← present members "structs" (asList StructDef.ofJson)
  let values ← present members "values" (asList ValueDef.ofJson)
  match structs, constants, values, insts, blocks, functions with
  | some structs, some constants, some values, some insts, some blocks, some functions =>
    return ⟨structs.toArray, constants, values.toArray, insts.toArray, blocks.toArray,
      functions.toArray⟩
  | _, _, _, _, _, _ => .error .malformed

end Module
end Shader
