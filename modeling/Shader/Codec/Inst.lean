import Shader.Codec.Constant
import Shader.Inst

/-!
Instructions as JSON.
-/
namespace Shader

open Json (field optionalField asList asWord asMember asBool)

namespace Selector

def toJson : Selector → Json
  | .otherwise => .str "Default"
  | .value id => .ofVariant "Value" id.toJson

def ofJson : Json → Decoded Selector
  | .str "Default" | .obj [("Default", .null)] => .ok .otherwise
  | .obj [("Value", id)] => return .value (← ConstId.ofJson id)
  | _ => .error .malformed

end Selector

def Case.toJson (case : Case) : Json :=
  .obj [("selectors", .ofList Selector.toJson case.selectors), ("block", case.block.toJson)]

def Case.ofJson (json : Json) : Decoded Case := do
  let members ← json.asRecord ["selectors", "block"]
  return ⟨← field members "selectors" (asList Selector.ofJson),
    ← field members "block" BlockId.ofJson⟩

def Conditional.toJson (construct : Conditional) : Json :=
  .obj [("condition", construct.condition.toJson), ("true_block", construct.whenTrue.toJson),
    ("false_block", construct.whenFalse.toJson), ("exits", .ofList InstId.toJson construct.exits)]

def Conditional.ofJson (json : Json) : Decoded Conditional := do
  let members ← json.asRecord ["condition", "true_block", "false_block", "exits"]
  return ⟨← field members "condition" Value.ofJson, ← field members "true_block" BlockId.ofJson,
    ← field members "false_block" BlockId.ofJson,
    ← field members "exits" (asList InstId.ofJson)⟩

def Loop.toJson (construct : Loop) : Json :=
  .obj [("initializer", .ofOption BlockId.toJson construct.initializer), ("body", construct.body.toJson),
    ("continuing", construct.continuing.toJson), ("exits", .ofList InstId.toJson construct.exits)]

def Loop.ofJson (json : Json) : Decoded Loop := do
  let members ← json.asRecord ["initializer", "body", "continuing", "exits"]
  return ⟨← optionalField members "initializer" BlockId.ofJson,
    ← field members "body" BlockId.ofJson, ← field members "continuing" BlockId.ofJson,
    ← field members "exits" (asList InstId.ofJson)⟩

def Switch.toJson (construct : Switch) : Json :=
  .obj [("condition", construct.condition.toJson), ("cases", .ofList Case.toJson construct.cases),
    ("exits", .ofList InstId.toJson construct.exits)]

def Switch.ofJson (json : Json) : Decoded Switch := do
  let members ← json.asRecord ["condition", "cases", "exits"]
  return ⟨← field members "condition" Value.ofJson,
    ← field members "cases" (asList Case.ofJson),
    ← field members "exits" (asList InstId.ofJson)⟩

def Interpolation.toJson (interpolation : Interpolation) : Json :=
  .obj [("ty", .ofMember interpolation.ty), ("sampling", .ofMember interpolation.sampling)]

def Interpolation.ofJson (json : Json) : Decoded Interpolation := do
  let members ← json.asRecord ["ty", "sampling"]
  return ⟨← field members "ty" asMember, ← field members "sampling" asMember⟩

def IoAttributes.toJson (attributes : IoAttributes) : Json :=
  .obj [("location", .ofOption .word attributes.location),
    ("blend_src", .ofOption .word attributes.blendSource),
    ("interpolation", .ofOption Interpolation.toJson attributes.interpolation),
    ("builtin", .ofOption .ofMember attributes.builtin), ("invariant", .bool attributes.invariant)]

def IoAttributes.ofJson (json : Json) : Decoded IoAttributes := do
  let members ← json.asRecord ["location", "blend_src", "interpolation", "builtin", "invariant"]
  return ⟨← optionalField members "location" asWord,
    ← optionalField members "blend_src" asWord,
    ← optionalField members "interpolation" Interpolation.ofJson,
    ← optionalField members "builtin" asMember,
    ← field members "invariant" asBool⟩

def BindingPoint.toJson (point : BindingPoint) : Json :=
  .obj [("group", .word point.group), ("binding", .word point.binding)]

def BindingPoint.ofJson (json : Json) : Decoded BindingPoint := do
  let members ← json.asRecord ["group", "binding"]
  return ⟨← field members "group" asWord, ← field members "binding" asWord⟩

def Variable.toJson (declaration : Variable) : Json :=
  .obj [("initializer", .ofOption Value.toJson declaration.initializer),
    ("binding_point", .ofOption BindingPoint.toJson declaration.bindingPoint),
    ("attributes", declaration.attributes.toJson),
    ("input_attachment_index", .ofOption .word declaration.attachmentIndex)]

def Variable.ofJson (json : Json) : Decoded Variable := do
  let members ← json.asRecord ["initializer", "binding_point", "attributes", "input_attachment_index"]
  return ⟨← optionalField members "initializer" Value.ofJson,
    ← optionalField members "binding_point" BindingPoint.ofJson,
    ← field members "attributes" IoAttributes.ofJson,
    ← optionalField members "input_attachment_index" asWord⟩

namespace Kind

def toJson : Kind → Json
  | .access object indices =>
    .ofVariant "Access"
      (.obj [("object", object.toJson), ("indices", .ofList Value.toJson indices)])
  | .binary op lhs rhs =>
    .ofVariant "Binary" (.obj [("op", .ofMember op), ("lhs", lhs.toJson), ("rhs", rhs.toJson)])
  | .unary op value => .ofVariant "Unary" (.obj [("op", .ofMember op), ("value", value.toJson)])
  | .bitcast value => .ofVariant "Bitcast" (.obj [("value", value.toJson)])
  | .convert value => .ofVariant "Convert" (.obj [("value", value.toJson)])
  | .construct args => .ofVariant "Construct" (.obj [("args", .ofList Value.toJson args)])
  | .swizzle object indices =>
    .ofVariant "Swizzle" (.obj [("object", object.toJson), ("indices", .ofList .word indices)])
  | .load source => .ofVariant "Load" (.obj [("from", source.toJson)])
  | .store target value =>
    .ofVariant "Store" (.obj [("to", target.toJson), ("value", value.toJson)])
  | .loadElement source index =>
    .ofVariant "LoadVectorElement" (.obj [("from", source.toJson), ("index", index.toJson)])
  | .storeElement target index value =>
    .ofVariant "StoreVectorElement"
      (.obj [("to", target.toJson), ("index", index.toJson), ("value", value.toJson)])
  | .var declaration => .ofVariant "Var" declaration.toJson
  | .bind value => .ofVariant "Let" (.obj [("value", value.toJson)])
  | .builtin fn args =>
    .ofVariant "CoreBuiltinCall"
      (.obj [("func", .ofMember fn), ("args", .ofList Value.toJson args)])
  | .targetCall fn args =>
    .ofVariant "SpirvBuiltinCall"
      (.obj [("func", .ofMember fn), ("args", .ofList Value.toJson args)])
  | .call target args =>
    .ofVariant "UserCall" (.obj [("target", target.toJson), ("args", .ofList Value.toJson args)])
  | .conditional owner => .ofVariant "If" owner.toJson
  | .loop owner => .ofVariant "Loop" owner.toJson
  | .switch owner => .ofVariant "Switch" owner.toJson
  | .ret value => .ofVariant "Return" (.obj [("value", .ofOption Value.toJson value)])
  | .breakIf condition target nextArgs exitArgs =>
    .ofVariant "BreakIf"
      (.obj [("condition", condition.toJson), ("target", target.toJson),
        ("next_iter_args", .ofList Value.toJson nextArgs), ("exit_args", .ofList Value.toJson exitArgs)])
  | .continueTo target args =>
    .ofVariant "Continue" (.obj [("target", target.toJson), ("args", .ofList Value.toJson args)])
  | .nextIteration target args =>
    .ofVariant "NextIteration"
      (.obj [("target", target.toJson), ("args", .ofList Value.toJson args)])
  | .exitIf target args =>
    .ofVariant "ExitIf" (.obj [("target", target.toJson), ("args", .ofList Value.toJson args)])
  | .exitLoop target args =>
    .ofVariant "ExitLoop" (.obj [("target", target.toJson), ("args", .ofList Value.toJson args)])
  | .exitSwitch target args =>
    .ofVariant "ExitSwitch" (.obj [("target", target.toJson), ("args", .ofList Value.toJson args)])
  | .terminate => .str "TerminateInvocation"
  | .unreachable => .str "Unreachable"

/-- An instruction with parts. -/
def ofParts (name : String) (json : Json) : Decoded Kind :=
  match name with
  | "Var" => return .var (← Variable.ofJson json)
  | "If" => return .conditional (← Conditional.ofJson json)
  | "Loop" => return .loop (← Loop.ofJson json)
  | "Switch" => return .switch (← Switch.ofJson json)
  | "Access" => do
    let members ← json.asRecord ["object", "indices"]
    return .access (← field members "object" Value.ofJson)
      (← field members "indices" (asList Value.ofJson))
  | "Binary" => do
    let members ← json.asRecord ["op", "lhs", "rhs"]
    return .binary (← field members "op" asMember)
      (← field members "lhs" Value.ofJson) (← field members "rhs" Value.ofJson)
  | "Unary" => do
    let members ← json.asRecord ["op", "value"]
    return .unary (← field members "op" asMember)
      (← field members "value" Value.ofJson)
  | "Bitcast" => do
    let members ← json.asRecord ["value"]
    return .bitcast (← field members "value" Value.ofJson)
  | "Convert" => do
    let members ← json.asRecord ["value"]
    return .convert (← field members "value" Value.ofJson)
  | "Construct" => do
    let members ← json.asRecord ["args"]
    return .construct (← field members "args" (asList Value.ofJson))
  | "Swizzle" => do
    let members ← json.asRecord ["object", "indices"]
    return .swizzle (← field members "object" Value.ofJson)
      (← field members "indices" (asList asWord))
  | "Load" => do
    let members ← json.asRecord ["from"]
    return .load (← field members "from" Value.ofJson)
  | "Store" => do
    let members ← json.asRecord ["to", "value"]
    return .store (← field members "to" Value.ofJson)
      (← field members "value" Value.ofJson)
  | "LoadVectorElement" => do
    let members ← json.asRecord ["from", "index"]
    return .loadElement (← field members "from" Value.ofJson)
      (← field members "index" Value.ofJson)
  | "StoreVectorElement" => do
    let members ← json.asRecord ["to", "index", "value"]
    return .storeElement (← field members "to" Value.ofJson)
      (← field members "index" Value.ofJson) (← field members "value" Value.ofJson)
  | "Let" => do
    let members ← json.asRecord ["value"]
    return .bind (← field members "value" Value.ofJson)
  | "CoreBuiltinCall" => do
    let members ← json.asRecord ["func", "args"]
    return .builtin (← field members "func" asMember)
      (← field members "args" (asList Value.ofJson))
  | "SpirvBuiltinCall" => do
    let members ← json.asRecord ["func", "args"]
    return .targetCall (← field members "func" asMember)
      (← field members "args" (asList Value.ofJson))
  | "UserCall" => do
    let members ← json.asRecord ["target", "args"]
    return .call (← field members "target" FuncId.ofJson)
      (← field members "args" (asList Value.ofJson))
  | "Return" => do
    let members ← json.asRecord ["value"]
    return .ret (← optionalField members "value" Value.ofJson)
  | "BreakIf" => do
    let members ← json.asRecord ["condition", "target", "next_iter_args", "exit_args"]
    return .breakIf (← field members "condition" Value.ofJson)
      (← field members "target" InstId.ofJson)
      (← field members "next_iter_args" (asList Value.ofJson))
      (← field members "exit_args" (asList Value.ofJson))
  | "Continue" => do
    let members ← json.asRecord ["target", "args"]
    return .continueTo (← field members "target" InstId.ofJson)
      (← field members "args" (asList Value.ofJson))
  | "NextIteration" => do
    let members ← json.asRecord ["target", "args"]
    return .nextIteration (← field members "target" InstId.ofJson)
      (← field members "args" (asList Value.ofJson))
  | "ExitIf" => do
    let members ← json.asRecord ["target", "args"]
    return .exitIf (← field members "target" InstId.ofJson)
      (← field members "args" (asList Value.ofJson))
  | "ExitLoop" => do
    let members ← json.asRecord ["target", "args"]
    return .exitLoop (← field members "target" InstId.ofJson)
      (← field members "args" (asList Value.ofJson))
  | "ExitSwitch" => do
    let members ← json.asRecord ["target", "args"]
    return .exitSwitch (← field members "target" InstId.ofJson)
      (← field members "args" (asList Value.ofJson))
  | _ => .error .malformed

def ofJson : Json → Decoded Kind
  | .str "TerminateInvocation" | .obj [("TerminateInvocation", .null)] => .ok .terminate
  | .str "Unreachable" | .obj [("Unreachable", .null)] => .ok .unreachable
  | .obj [(name, json)] => ofParts name json
  | _ => .error .malformed

end Kind

def Inst.toJson (inst : Inst) : Json :=
  .obj [("kind", inst.kind.toJson), ("results", .ofList ValueId.toJson inst.results),
    ("block", inst.block.toJson)]

def Inst.ofJson (json : Json) : Decoded Inst := do
  let members ← json.asRecord ["kind", "results", "block"]
  return ⟨← field members "kind" Kind.ofJson,
    ← field members "results" (asList ValueId.ofJson),
    ← field members "block" BlockId.ofJson⟩

end Shader
