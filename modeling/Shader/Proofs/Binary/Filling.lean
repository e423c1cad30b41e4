import Shader.Binary.Instruction

/-!
Operands in the places of a grammar.

A grammar has places for the result type and the result first, then for single operands, and last for any number of
them. So filling the places comes to taking the results off the front and classifying what is left.
-/
namespace Shader.Binary.Instruction

/-- Classify the operands after the result by the grammar, for as long as there are operands. -/
def classify (rest : Option Repetition) : List OperandClass → List Operand → List Operand
  | _, [] => []
  | kind :: kinds, operand :: operands => operand.classified kind :: classify rest kinds operands
  | [], operands => match rest with
    | none => operands
    | some repetition => repetition.classify 0 operands

/-- Take a result off the front of the operands, if the grammar has it. -/
def takeIf (op : Opcode) (present : Bool) (operands : List Operand) : Except Fault (Option Word × List Operand) :=
  if present then takeResult op operands else .ok (none, operands)

/-- The instruction with the given operands by a grammar. -/
def makeBy (grammar : Grammar) (op : Opcode) (operands : List Operand) : Except Fault Instruction := do
  let (resultType, operands) ← takeIf op grammar.resultType operands
  let (result, operands) ← takeIf op grammar.result operands
  let inst := ⟨op, resultType, result, classify grammar.rest grammar.fixed operands⟩
  if inst.wordCount > maxWords then
    .error (.tooLong op inst.wordCount)
  else
    .ok inst

theorem fill_others (inst : Instruction) (rest : Option Repetition) (fixed : List OperandClass)
    (operands : List Operand) : inst.fill (fixed.map .one ++ rest.toList.map .many) operands =
      .ok { inst with operands := inst.operands ++ classify rest fixed operands } := by
  induction fixed generalizing inst operands with
  | nil => cases rest <;> cases operands <;> simp [fill, classify, Repetition.classify]
  | cons kind fixed ih => cases operands <;> simp [fill, classify, ih]

theorem makeWith_slots (grammar : Grammar) (op : Opcode) (operands : List Operand) :
    makeWith grammar.slots op operands = makeBy grammar op operands := by
  obtain ⟨resultType, result, fixed, rest⟩ := grammar
  unfold makeWith makeBy
  cases resultType <;> cases result <;> simp only [Grammar.slots, takeIf, if_true, Bool.false_eq_true, if_false,
    List.nil_append, List.cons_append, fill, fill_others, bind_assoc] <;> rfl

theorem make_eq (op : Opcode) (operands : List Operand) : make op operands = makeBy op.grammar op operands :=
  makeWith_slots op.grammar op operands

end Shader.Binary.Instruction
