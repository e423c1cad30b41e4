import Shader.Constant
import Shader.Inst

/-!
Modules: structs, constants, values, instructions, blocks and functions in flat tables.

A reference into a table that has no such entry is a fault.
-/
namespace Shader

/-- What defines a value. -/
inductive Origin where
  | result (inst : InstId)
  | functionParam (function : FuncId)
  | blockParam (block : BlockId)
  deriving DecidableEq

/-- A value. -/
structure ValueDef where
  ty : Ty
  name : Option String
  origin : Origin
  deriving DecidableEq

/-- A function. `entry` is its first block. A compute entry point needs a workgroup size. -/
structure Function where
  name : String
  params : List ValueId
  returnType : Ty
  stage : Stage
  workgroupSize : Option (UInt32 × UInt32 × UInt32)
  entry : BlockId
  deriving DecidableEq

/-- A block. `parent` is the control instruction that owns it. The body and the continuing block of a
loop have parameters, and `inbound` lists the branches into them in the order they were made. -/
structure Block where
  insts : List InstId := []
  params : List ValueId := []
  parent : Option InstId := none
  inbound : List InstId := []
  deriving DecidableEq

/-- A module. -/
structure Module where
  structs : Array StructDef := #[]
  constants : Pool := .empty
  values : Array ValueDef := #[]
  insts : Array Inst := #[]
  blocks : Array Block := #[]
  functions : Array Function := #[]
  deriving DecidableEq

namespace Module

/-- A module with nothing but an empty root block. -/
def empty : Module := { blocks := #[{}] }

def structDef (m : Module) (id : StructId) : Except Fault StructDef :=
  match m.structs[id.index]? with
  | some found => .ok found
  | none => .error (.unknownStruct id)

def value (m : Module) (id : ValueId) : Except Fault ValueDef :=
  match m.values[id.index]? with
  | some found => .ok found
  | none => .error (.unknownValue id)

def inst (m : Module) (id : InstId) : Except Fault Inst :=
  match m.insts[id.index]? with
  | some found => .ok found
  | none => .error (.unknownInst id)

def block (m : Module) (id : BlockId) : Except Fault Block :=
  match m.blocks[id.index]? with
  | some found => .ok found
  | none => .error (.unknownBlock id)

def function (m : Module) (id : FuncId) : Except Fault Function :=
  match m.functions[id.index]? with
  | some found => .ok found
  | none => .error (.unknownFunction id)

/-- The block that holds the declarations of the whole module. -/
def rootBlock (m : Module) : Except Fault Block := m.block .root

/-- Add a struct definition. -/
def addStruct (m : Module) (definition : StructDef) : StructId × Module :=
  (⟨m.structs.size⟩, { m with structs := m.structs.push definition })

def nameOf (m : Module) (id : ValueId) : Except Fault (Option String) := do
  return (← m.value id).name

/-- The type of an operand, when its constants are those of `pool`. A bare word counts as an unsigned
integer. -/
def typeIn (m : Module) (pool : Pool) : Value → Except Fault Ty
  | .constant id => pool.typeOf id
  | .ssa id => do return (← m.value id).ty
  | .literal _ => return .u32

/-- The type of an operand. -/
def typeOf (m : Module) (value : Value) : Except Fault Ty := m.typeIn m.constants value

/-- The instruction that ends a block, if the block has been ended. -/
def terminator? (m : Module) (id : BlockId) : Except Fault (Option InstId) := do
  match (← m.block id).insts.getLast? with
  | none => return none
  | some last => return if (← m.inst last).kind.isTerminator then some last else none

/-- The type of a component of a composite type. Only structs look at the index. -/
def elementType (m : Module) (index : UInt32) : Ty → Except Fault Ty
  | .vector elem _ => return elem
  | .array elem _ _ => return elem
  | .matrix elem _ rows => return .vector elem rows
  | .struct id => do
    match (← m.structDef id).members[index.toNat]? with
    | some member => return member.ty
    | none => throw (.noMember id index)
  | ty => throw (.notIndexable ty)

/-- The blocks an instruction owns. -/
def childrenOf (m : Module) (id : InstId) : Except Fault (List BlockId) := do
  return (← m.inst id).kind.children

/-- What `visit` finds in a block and in the blocks under it, outermost first, down to `depth` levels. -/
def collectWithin {α : Type} (m : Module) (visit : BlockId → Except Fault (List α)) :
    (depth : Nat) → BlockId → Except Fault (List α)
  | 0, _ => .error .circular
  | depth + 1, id => do
    let found ← visit id
    let nested ← (← m.block id).insts.mapM fun inst => do
      return (← (← m.childrenOf inst).mapM (m.collectWithin visit depth)).flatten
    return found ++ nested.flatten

/-- What `visit` finds in a block and in the blocks under it. Blocks that do not contain themselves nest
at most as deep as there are blocks. -/
def collect {α : Type} (m : Module) (visit : BlockId → Except Fault (List α)) (id : BlockId) :
    Except Fault (List α) :=
  m.collectWithin visit (m.blocks.size + 1) id

/-- A block and the blocks under it, outermost first. -/
def blocksUnder (m : Module) (id : BlockId) : Except Fault (List BlockId) :=
  m.collect (fun block => return [block]) id

/-- The defined values that the instructions of a block refer to. -/
def valuesUsedIn (m : Module) (id : BlockId) : Except Fault (List ValueId) := do
  let used ← (← m.block id).insts.mapM fun inst => do
    return (← m.inst inst).kind.operands.filterMap Value.ssa?
  return used.flatten

/-- The defined values that the instructions of a block and of the blocks under it refer to. -/
def valuesUsedUnder (m : Module) (id : BlockId) : Except Fault (List ValueId) :=
  m.collect m.valuesUsedIn id

end Module
end Shader
