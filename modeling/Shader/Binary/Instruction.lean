import Shader.Fault

/-!
Target instructions and their binary form.

`Instruction.make` takes operands in the order of the binary. It sets the result type and the result
apart and classifies the others by the grammar; no operand is dropped, added or moved. The first word
of an instruction holds the number of its words in the high half, so an instruction that needs more
than `maxWords` is refused.
-/
namespace Shader.Binary

/-- The most words an instruction can have. -/
def maxWords : Nat := 0xFFFF

/-- A target instruction. -/
structure Instruction where
  op : Opcode
  resultType : Option Word
  result : Option Word
  operands : List Operand
  deriving DecidableEq

namespace Repetition

/-- Classify repeated operands, `position` of which have gone before. -/
def classify (repetition : Repetition) (position : Nat) : List Operand → List Operand
  | [] => []
  | operand :: rest =>
    let kind : OperandClass := match repetition with
      | .ids => .id
      | .literals => .literal
      | .literalIdPairs => if position % 2 = 1 then .id else .literal
      | .idLiteralPairs => if position % 2 = 0 then .id else .literal
    operand.classified kind :: repetition.classify (position + 1) rest

end Repetition

namespace Instruction

/-- Take a result off the front of the operands, if there is an operand. -/
def takeResult (op : Opcode) : List Operand → Except Fault (Option Word × List Operand)
  | [] => .ok (none, [])
  | operand :: operands =>
    match operand.idWord? with
    | some word => .ok (some word, operands)
    | none => .error (.resultNotId op operand)

/-- Put operands into places, in order. Those that are left when there are no more places are kept as they are. -/
def fill (inst : Instruction) : List Slot → List Operand → Except Fault Instruction
  | [], operands => .ok { inst with operands := inst.operands ++ operands }
  | .resultType :: slots, operands => do
    let (resultType, operands) ← takeResult inst.op operands
    { inst with resultType }.fill slots operands
  | .result :: slots, operands => do
    let (result, operands) ← takeResult inst.op operands
    { inst with result }.fill slots operands
  | .one _ :: _, [] => .ok inst
  | .one kind :: slots, operand :: operands =>
    { inst with operands := inst.operands ++ [operand.classified kind] }.fill slots operands
  | .many repetition :: _, operands =>
    .ok { inst with operands := inst.operands ++ repetition.classify 0 operands }

/-- How many words an instruction has. -/
def wordCount (inst : Instruction) : Nat :=
  1 + inst.resultType.toList.length + inst.result.toList.length +
    inst.operands.foldl (fun total operand => total + operand.wordCount) 0

/-- The instruction with the given operands, in the order of the binary, put into the given places. -/
def makeWith (slots : List Slot) (op : Opcode) (operands : List Operand) : Except Fault Instruction := do
  let inst ← fill ⟨op, none, none, []⟩ slots operands
  if inst.wordCount > maxWords then
    .error (.tooLong op inst.wordCount)
  else
    .ok inst

/-- The instruction with the given operands, in the order of the binary. -/
def make (op : Opcode) (operands : List Operand) : Except Fault Instruction := makeWith op.grammar.slots op operands

/-- The first word: the number of words above the code. -/
def header (inst : Instruction) : Word :=
  (UInt32.ofNat inst.wordCount <<< 16) ||| inst.op.code

/-- The words of an instruction. -/
def words (inst : Instruction) : List Word :=
  inst.header :: (inst.resultType.toList ++ inst.result.toList ++ inst.operands.flatMap Operand.words)

end Instruction
end Shader.Binary
