import Shader.Lower.Constructs

/-!
Lowering a whole module: its variables, then its functions, each in order.

An entry point lists the input and output variables that its blocks refer to, in the order they are
declared.
-/
namespace Shader.Lower

open Binary

/-- Lower the declarations of the root block, which are all variables. -/
def emitRoot (m : Module) (options : Options) : Lower Unit := do
  (← check m.rootBlock).insts.forM fun id => do
    let inst ← check (m.inst id)
    match inst.kind with
    | .var declaration => declareVariable m options id inst declaration
    | kind => fail (.rootInstruction kind.name)

/-- The execution model of a stage, with the modes it needs. -/
def executionModel (function : Function) (id : Word) : Lower Word :=
  let addMode (mode : List Word) : Lower Unit :=
    add .executionModes .executionMode (.id id :: mode.map .literal)
  match function.stage with
  | .compute => do
    match function.workgroupSize with
    | none => fail (.noWorkgroupSize function.name)
    | some (x, y, z) => addMode [ExecutionMode.localSize, x, y, z]
    return ExecutionModel.glCompute
  | .fragment => do
    addMode [ExecutionMode.originUpperLeft]
    return ExecutionModel.fragment
  | _ => return ExecutionModel.vertex

/-- Whether an address space is part of the interface of an entry point. -/
def isInterfaceSpace : AddressSpace → Bool
  | .input | .output => true
  | _ => false

/-- The variable a root instruction declares, if it is one of the interface that `used` lists. -/
def interfaceVariable? (m : Module) (used : List ValueId) (inst : Inst) :
    Except Fault (Option (ValueId × Variable)) := do
  match inst.kind, inst.result? with
  | .var declaration, some result => do
    match (← m.value result).ty with
    | .pointer space _ _ =>
      return if isInterfaceSpace space && used.contains result then some (result, declaration) else none
    | _ => return none
  | _, _ => return none

/-- The id of a root variable if it belongs to the interface. A fragment that writes its depth says so. -/
def interfaceId (m : Module) (used : List ValueId) (entryPoint : Word) (root : InstId) :
    Lower (List Operand) := do
  match ← check (do interfaceVariable? m used (← m.inst root)) with
  | none => return []
  | some (result, declaration) => do
    let id ← valueId m (.ssa result)
    if declaration.attributes.builtin = some .fragDepth then
      add .executionModes .executionMode [.id entryPoint, .literal ExecutionMode.depthReplacing]
    return [.id id]

/-- Declare an entry point. -/
def emitEntryPoint (m : Module) (function : Function) (id : Word) : Lower Unit := do
  let model ← executionModel function id
  let used ← check (m.valuesUsedUnder function.entry)
  let ids ← (← check m.rootBlock).insts.mapM (interfaceId m used id)
  add .entryPoints .entryPoint ([.literal model, .id id, .text function.name] ++ ids.flatten)

/-- The id of a function type. -/
def signatureId (signature : Signature) : Lower Word :=
  remember .signatures signature do
    let id ← fresh
    declare .typeFunction (.id id :: .id signature.returnType :: signature.params.map .id)
    return id

/-- Declare a parameter: its instruction and the id of its type. -/
def emitParameter (m : Module) (param : ValueId) : Lower (Instruction × Word) := do
  let id ← valueId m (.ssa param)
  let value ← check (m.value param)
  let typeWord ← typeId m value.ty
  let declaration ← check (Instruction.make .functionParameter [.id typeWord, .id id])
  if let some name := value.name then
    nameId id name
  return (declaration, typeWord)

/-- Lower a function. -/
def emitFunction (m : Module) (options : Options) (functionRef : FuncId) : Lower Unit := do
  let function ← check (m.function functionRef)
  if function.params.length > maxParameters then
    throw (.tooManyParameters function.name)
  let id ← functionId functionRef
  nameId id function.name
  if function.stage ≠ .none then
    emitEntryPoint m function id
  let returnType ← typeId m function.returnType
  let params ← function.params.mapM (emitParameter m)
  let signature ← signatureId ⟨returnType, params.map Prod.snd⟩
  let declaration ← check
    (Instruction.make .function [.id returnType, .id id, .literal noControl, .id signature])
  let label ← labelId function.entry
  let code ← check (FunctionCode.start declaration label (params.map Prod.fst))
  modify fun state => { state with code := some code }
  emitBody m options function.entry
  modify fun state =>
    { state with code := none, out := state.code.toList.foldl Assembly.pushFunction state.out }

/-- Lower a module. -/
def emitModule (m : Module) (options : Options) : Lower Unit := do
  require .shader
  let state ← get
  let out ← check (state.out.setMemoryModel .memoryModel
    [.literal Addressing.logical, .literal Memory.glsl450])
  set { state with out }
  emitRoot m options
  (List.range m.functions.size).forM fun index => emitFunction m options ⟨index⟩

end Shader.Lower

namespace Shader.Module

open Binary

/-- The sections of the lowered module. -/
def lower (m : Module) (options : Lower.Options) : Except Failure Assembly := do
  let ((), state) ← (Lower.emitModule m options).run { pool := m.constants }
  return state.out

/-- The lowered module: its sections and its words. -/
structure Lowered where
  assembly : Assembly
  words : List Word

/-- Lower a module to words. -/
def generate (m : Module) (options : Lower.Options) : Except Failure Lowered := do
  let assembly ← m.lower options
  match assembly.assemble with
  | .ok words => return ⟨assembly, words⟩
  | .error fault => throw (.fault fault)

end Shader.Module
