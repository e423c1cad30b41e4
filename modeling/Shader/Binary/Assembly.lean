import Shader.Binary.Enumerant
import Shader.Binary.Instruction

/-!
Sections of a target module and its binary form.

Instructions are added to their section in any order; the binary lists the sections in the order the
target asks for. Capabilities and extensions are listed once each, in the order of first mention. Local
variables of a function are listed at the start of its first block, wherever they were added.
-/
namespace Shader.Binary

/-- A label and the instructions up to the next one. -/
structure BasicBlock where
  label : Instruction
  body : Array Instruction
  deriving DecidableEq

/-- The instructions of a block, label first. -/
def BasicBlock.instructions (block : BasicBlock) : List Instruction :=
  block.label :: block.body.toList

/-- A function under construction: `current` is the block that instructions are added to, `closed` the
blocks before it. -/
structure FunctionCode where
  declaration : Instruction
  params : List Instruction
  locals : Array Instruction
  closed : Array BasicBlock
  current : BasicBlock
  deriving DecidableEq

namespace FunctionCode

/-- A function with its declaration, its parameters and the label of its first block. -/
def start (declaration : Instruction) (label : Word) (params : List Instruction) :
    Except Fault FunctionCode := do
  let label ← Instruction.make .label [.literal label]
  return ⟨declaration, params, #[], #[], ⟨label, #[]⟩⟩

/-- Add an instruction to the current block; a label opens a new one. -/
def push (code : FunctionCode) (op : Opcode) (operands : List Operand) : Except Fault FunctionCode := do
  let inst ← Instruction.make op operands
  if op = .label then
    return { code with closed := code.closed.push code.current, current := ⟨inst, #[]⟩ }
  else
    return { code with current := { code.current with body := code.current.body.push inst } }

/-- Add a local variable. -/
def pushLocal (code : FunctionCode) (operands : List Operand) : Except Fault FunctionCode := do
  let inst ← Instruction.make .variableDecl operands
  return { code with locals := code.locals.push inst }

/-- The blocks in order, without the local variables. -/
def blocks (code : FunctionCode) : List BasicBlock :=
  code.closed.toList ++ [code.current]

/-- A block that starts with the given instructions. -/
def withLocals (locals : Array Instruction) : List BasicBlock → List BasicBlock
  | [] => []
  | entry :: rest => { entry with body := locals ++ entry.body } :: rest

/-- The instruction that ends a function. -/
def ending : Instruction := ⟨.functionEnd, none, none, []⟩

/-- A function in the order of the binary. -/
def instructions (code : FunctionCode) : List Instruction :=
  code.declaration :: code.params ++
    (withLocals code.locals code.blocks).flatMap BasicBlock.instructions ++ [ending]

end FunctionCode

/-- A target module under construction. Id 0 is never handed out. -/
structure Assembly where
  ids : IdSource := .startingAt 1
  capabilities : Array Capability := #[]
  extensions : Array String := #[]
  imports : Array Instruction := #[]
  memoryModel : Option Instruction := none
  entryPoints : Array Instruction := #[]
  executionModes : Array Instruction := #[]
  names : Array Instruction := #[]
  annotations : Array Instruction := #[]
  globals : Array Instruction := #[]
  functions : Array FunctionCode := #[]
  deriving DecidableEq

namespace Assembly

/-- A module with nothing in it. -/
def empty : Assembly := {}

/-- One past the greatest id handed out. -/
def idBound (asm : Assembly) : Word := asm.ids.bound

/-- The next id and the module after handing it out, unless the ids are used up. -/
def takeId? (asm : Assembly) : Option (Word × Assembly) :=
  asm.ids.take?.map fun (id, ids) => (id, { asm with ids })

/-- Declare a capability, once. -/
def pushCapability (asm : Assembly) (capability : Capability) : Assembly :=
  if asm.capabilities.contains capability then asm
  else { asm with capabilities := asm.capabilities.push capability }

/-- Declare an extension, once. -/
def pushExtension (asm : Assembly) (name : String) : Assembly :=
  if asm.extensions.contains name then asm
  else { asm with extensions := asm.extensions.push name }

/-- Sections that hold any number of instructions. -/
inductive Section where
  | imports
  | entryPoints
  | executionModes
  | names
  | annotations
  | globals
  deriving DecidableEq

/-- Add an instruction to a section. -/
def push (asm : Assembly) (part : Section) (op : Opcode) (operands : List Operand) :
    Except Fault Assembly := do
  let inst ← Instruction.make op operands
  return match part with
    | .imports => { asm with imports := asm.imports.push inst }
    | .entryPoints => { asm with entryPoints := asm.entryPoints.push inst }
    | .executionModes => { asm with executionModes := asm.executionModes.push inst }
    | .names => { asm with names := asm.names.push inst }
    | .annotations => { asm with annotations := asm.annotations.push inst }
    | .globals => { asm with globals := asm.globals.push inst }

/-- Set the memory model, which a module has at most once. -/
def setMemoryModel (asm : Assembly) (op : Opcode) (operands : List Operand) : Except Fault Assembly := do
  if asm.memoryModel.isSome then
    .error .secondMemoryModel
  else
    let inst ← Instruction.make op operands
    return { asm with memoryModel := some inst }

/-- Add a finished function. -/
def pushFunction (asm : Assembly) (code : FunctionCode) : Assembly :=
  { asm with functions := asm.functions.push code }

/-- The number of entries of each section, in the order of the binary. -/
def sectionSizes (asm : Assembly) : List Nat :=
  [asm.capabilities.size, asm.extensions.size, asm.imports.size, asm.memoryModel.toList.length,
    asm.entryPoints.size, asm.executionModes.size, asm.names.size, asm.annotations.size,
    asm.globals.size, asm.functions.size]

/-- All instructions in the order of the binary. -/
def instructions (asm : Assembly) : Except Fault (List Instruction) := do
  let capabilities ← asm.capabilities.toList.mapM fun capability =>
    Instruction.make .capability [.literal capability.code]
  let extensions ← asm.extensions.toList.mapM fun name => Instruction.make .extension [.text name]
  return capabilities ++ extensions ++ asm.imports.toList ++ asm.memoryModel.toList ++
    asm.entryPoints.toList ++ asm.executionModes.toList ++ asm.names.toList ++
    asm.annotations.toList ++ asm.globals.toList ++
    asm.functions.toList.flatMap FunctionCode.instructions

/-- The first word of every module. -/
def magic : Word := 0x07230203

/-- Version 1.3 of the target. -/
def version : Word := 0x00010300

/-- The tool that wrote the module: an unregistered one, at its first version. -/
def generator : Word := 1

/-- The five words before the instructions. -/
def header (asm : Assembly) : List Word := [magic, version, generator, asm.idBound, 0]

/-- The binary form. -/
def assemble (asm : Assembly) : Except Fault (List Word) := do
  let instructions ← asm.instructions
  return asm.header ++ instructions.flatMap Instruction.words

end Assembly
end Shader.Binary
