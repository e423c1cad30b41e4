import Shader.Binary.Operand
import Shader.Operators
import Shader.Ty
import Shader.Value

/-!
Broken invariants of a module.

Everything that reads a module expects it to be well formed: references point into the tables, values
have the types their uses need, blocks are where their branches say. A `Fault` names the expectation
that failed and what it failed on.
-/
namespace Shader

/-- An expectation about a module, or about assembled instructions, that does not hold. -/
inductive Fault where
  | unknownStruct (id : StructId)
  | unknownConstant (id : ConstId)
  | unknownValue (id : ValueId)
  | unknownInst (id : InstId)
  | unknownBlock (id : BlockId)
  | unknownFunction (id : FuncId)
  | noMember (id : StructId) (index : UInt32)
  | notIndexable (ty : Ty)
  | noElement (id : ConstId) (index : Nat)
  | elementOfScalar (scalar : Scalar)
  /-- Definitions refer to each other in a circle. -/
  | circular
  | resultNotId (op : Binary.Opcode) (operand : Binary.Operand)
  | tooLong (op : Binary.Opcode) (words : Nat)
  | secondMemoryModel
  | outsideFunction
  | rootInstruction (kind : String)
  | noWorkgroupSize (name : String)
  | varNotPointer (id : InstId) (ty : Ty)
  | varSpace (space : AddressSpace)
  | localVarOutsideFunction (id : InstId)
  | privateInitializer (id : InstId) (initializer : Value)
  | noBindingPoint (id : InstId)
  | attachmentIndex (id : InstId)
  | undefinedBuiltinValue
  | addressSpace (space : AddressSpace)
  | matrixElement (elem : Ty)
  | textureDimension (dim : TextureDim)
  | bgraStorage
  | runtimeArrayConstant (id : ConstId)
  | constantType (ty : Ty)
  | noResult (kind : String)
  | dynamicIndex (ty : Ty)
  | shortCircuit (op : BinaryOp)
  | binaryOperator (op : BinaryOp) (lhs : Ty)
  | negation (ty : Ty)
  | conversion (source target : Ty)
  | conversionOfBool (target : Ty)
  | elementThroughNonPointer (ty : Ty)
  | elementOfNonVector (ty : Ty)
  | builtinFunction (fn : BuiltinFn)
  | undefinedTargetFunction
  | outsideConstruct (kind : String) (id : InstId)
  | continueTarget (id : InstId)
  | noDefaultCase (id : InstId)
  | severalDefaultCases (id : InstId) (count : Nat)
  | caseSelector (id : InstId) (selector : ConstId)
  | notInBlock (id : InstId) (block : BlockId)
  | noBranchArgument (branch : InstId) (index : Nat) (block : BlockId)
  | noExitValue (exit : InstId) (index : Nat) (construct : InstId)
  deriving DecidableEq

namespace Fault

/-- What went wrong, in words. -/
def text : Fault → String
  | .unknownStruct id => s!"unknown struct {id.describe}"
  | .unknownConstant id => s!"unknown constant {id.describe}"
  | .unknownValue id => s!"unknown value {id.text}"
  | .unknownInst id => s!"unknown instruction {id.text}"
  | .unknownBlock id => s!"unknown block {id.text}"
  | .unknownFunction id => s!"unknown function {id.describe}"
  | .noMember id index => s!"struct {id.describe} has no member {index}"
  | .notIndexable ty => s!"cannot index into type {ty.describe}"
  | .noElement id index => s!"constant {id.describe} has no element {index}"
  | .elementOfScalar scalar => s!"cannot index scalar constant {scalar.describe}"
  | .circular => "definitions refer to each other in a circle"
  | .resultNotId op operand => s!"{op.text} result operand is not an ID: {operand.describe}"
  | .tooLong op words => s!"{op.text} needs {words} words, more than the 65535 an instruction can hold"
  | .secondMemoryModel => "memory model declared twice"
  | .outsideFunction => "instruction emitted outside of a function"
  | .rootInstruction kind => s!"unimplemented root block instruction: {kind}"
  | .noWorkgroupSize name => s!"compute entry point '{name}' has no workgroup size"
  | .varNotPointer id ty => s!"var {id.text} has non-pointer type {ty.describe}"
  | .varSpace space => s!"unimplemented variable address space {spelling space}"
  | .localVarOutsideFunction id => s!"function-scope var {id.text} outside of a function"
  | .privateInitializer id initializer =>
    s!"private var {id.text} has non-constant initializer {initializer.describe}"
  | .noBindingPoint id => s!"resource var {id.text} has no binding point"
  | .attachmentIndex id => s!"input attachment index on non-input-attachment var {id.text}"
  | .undefinedBuiltinValue => "undefined builtin value"
  | .addressSpace space => s!"unhandled address space {spelling space}"
  | .matrixElement elem => s!"matrix with non-scalar element {elem.describe}"
  | .textureDimension dim => s!"unhandled texture dimension {spelling dim}"
  | .bgraStorage => "bgra8unorm should have been polyfilled to rgba8unorm"
  | .runtimeArrayConstant id => s!"runtime-sized array constant {id.describe}"
  | .constantType ty => s!"unhandled constant type {ty.describe}"
  | .noResult kind => s!"{kind} instruction has no result"
  | .dynamicIndex ty => s!"dynamic index into non-vector value of type {ty.describe}"
  | .shortCircuit op => s!"short-circuiting {spelling op} must be lowered to control flow"
  | .binaryOperator op lhs => s!"unhandled binary instruction {spelling op} on {lhs.describe}"
  | .negation ty => s!"unhandled negation of {ty.describe}"
  | .conversion source target =>
    s!"unhandled conversion from {source.describe} to {target.describe}"
  | .conversionOfBool target => s!"unhandled conversion from bool to {target.describe}"
  | .elementThroughNonPointer ty => s!"vector element access through non-pointer {ty.describe}"
  | .elementOfNonVector ty => s!"vector element access into non-vector {ty.describe}"
  | .builtinFunction fn => s!"unimplemented builtin function: {fn.text}"
  | .undefinedTargetFunction => "undefined spirv builtin function"
  | .outsideConstruct kind id => s!"{kind} {id.text} outside of its construct"
  | .continueTarget id => s!"continue {id.text} does not target a loop"
  | .noDefaultCase id => s!"switch {id.text} has no default case"
  | .severalDefaultCases id count => s!"switch {id.text} has {count} default cases"
  | .caseSelector id selector =>
    s!"switch {id.text} has non-integer selector {selector.describe}"
  | .notInBlock id block => s!"{id.text} is not in its block {block.text}"
  | .noBranchArgument branch index block =>
    s!"{branch.text} passes no argument for parameter {index} of {block.text}"
  | .noExitValue exit index construct =>
    s!"{exit.text} carries no value for result {index} of {construct.text}"

/-- The full diagnostic. -/
def message (fault : Fault) : String := "internal compiler error: " ++ fault.text

end Fault
end Shader
