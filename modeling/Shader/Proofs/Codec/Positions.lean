import Shader.Module

/-!
The positions that the parts of a module name: of structs, constants, values, instructions, blocks and functions.
-/
namespace Shader

def StructId.positions (id : StructId) : List Nat := [id.index]

def ConstId.positions (id : ConstId) : List Nat := [id.index]

def ValueId.positions (id : ValueId) : List Nat := [id.index]

def InstId.positions (id : InstId) : List Nat := [id.index]

def BlockId.positions (id : BlockId) : List Nat := [id.index]

def FuncId.positions (id : FuncId) : List Nat := [id.index]

/-- The positions of the structs that a type names. -/
def Ty.positions : Ty → List Nat
  | .struct id => id.positions
  | .vector elem _ => elem.positions
  | .matrix elem _ _ => elem.positions
  | .array elem _ _ => elem.positions
  | .atomic inner => inner.positions
  | .pointer _ store _ => store.positions
  | .sampledTexture _ sampled => sampled.positions
  | .multisampledTexture _ sampled => sampled.positions
  | .storageTexture _ _ _ sampled => sampled.positions
  | .inputAttachment sampled => sampled.positions
  | .sampledImage image => image.positions
  | _ => []

def Member.positions (member : Member) : List Nat := member.ty.positions

def StructDef.positions (definition : StructDef) : List Nat := definition.members.flatMap Member.positions

def Value.positions : Value → List Nat
  | .constant id => id.positions
  | .ssa id => id.positions
  | .literal _ => []

def Constant.positions : Constant → List Nat
  | .scalar _ => []
  | .composite ty elements => ty.positions ++ elements.flatMap ConstId.positions
  | .splat ty element _ => ty.positions ++ element.positions

def Pool.positions (pool : Pool) : List Nat := pool.items.toList.flatMap Constant.positions

def Selector.positions : Selector → List Nat
  | .otherwise => []
  | .value id => id.positions

def Case.positions (case : Case) : List Nat := case.selectors.flatMap Selector.positions ++ case.block.positions

def Conditional.positions (construct : Conditional) : List Nat :=
  construct.condition.positions ++ construct.whenTrue.positions ++ construct.whenFalse.positions ++
    construct.exits.flatMap InstId.positions

def Loop.positions (construct : Loop) : List Nat :=
  construct.initializer.toList.flatMap BlockId.positions ++ construct.body.positions ++
    construct.continuing.positions ++ construct.exits.flatMap InstId.positions

def Switch.positions (construct : Switch) : List Nat :=
  construct.condition.positions ++ construct.cases.flatMap Case.positions ++ construct.exits.flatMap InstId.positions

def Variable.positions (declaration : Variable) : List Nat := declaration.initializer.toList.flatMap Value.positions

/-- The positions that an instruction names: those of its operands, of what it calls, of the construct that it leaves
and of the blocks and branches that it owns. -/
def Kind.positions : Kind → List Nat
  | .call target args => target.positions ++ args.flatMap Value.positions
  | .conditional owner => owner.positions
  | .loop owner => owner.positions
  | .switch owner => owner.positions
  | .breakIf condition target nextArgs exitArgs =>
    condition.positions ++ target.positions ++ nextArgs.flatMap Value.positions ++ exitArgs.flatMap Value.positions
  | .continueTo target args | .nextIteration target args | .exitIf target args | .exitLoop target args
  | .exitSwitch target args => target.positions ++ args.flatMap Value.positions
  | kind => kind.operands.flatMap Value.positions

def Inst.positions (inst : Inst) : List Nat :=
  inst.kind.positions ++ inst.results.flatMap ValueId.positions ++ inst.block.positions

def Origin.positions : Origin → List Nat
  | .result inst => inst.positions
  | .functionParam function => function.positions
  | .blockParam block => block.positions

def ValueDef.positions (value : ValueDef) : List Nat := value.ty.positions ++ value.origin.positions

def Function.positions (function : Function) : List Nat :=
  function.params.flatMap ValueId.positions ++ function.returnType.positions ++ function.entry.positions

def Block.positions (block : Block) : List Nat :=
  block.insts.flatMap InstId.positions ++ block.params.flatMap ValueId.positions ++
    block.parent.toList.flatMap InstId.positions ++ block.inbound.flatMap InstId.positions

/-- All positions that the entries of a module name. -/
def Module.positions (m : Module) : List Nat :=
  m.structs.toList.flatMap StructDef.positions ++ m.constants.positions ++ m.values.toList.flatMap ValueDef.positions ++
    m.insts.toList.flatMap Inst.positions ++ m.blocks.toList.flatMap Block.positions ++
    m.functions.toList.flatMap Function.positions

end Shader
