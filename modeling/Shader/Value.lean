import Shader.Ids
import Shader.Spelling

/-!
Operands of instructions, and scalar constants.
-/
namespace Shader

/-- An operand: a constant of the pool, a value defined in the module, or a bare word, which only
means something to a function of the target. -/
inductive Value where
  | constant (id : ConstId)
  | ssa (id : ValueId)
  | literal (word : UInt32)
  deriving DecidableEq

/-- The defined value an operand refers to, if it is one. -/
def Value.ssa? : Value → Option ValueId
  | .ssa id => some id
  | _ => none

def Value.describe : Value → String
  | .constant id => Text.tuple "Constant" [id.describe]
  | .ssa id => Text.tuple "Ssa" [id.describe]
  | .literal word => Text.tuple "Literal" [toString word]

/-- A scalar constant. Floats are kept as bit patterns. -/
inductive Scalar where
  | bool (value : Bool)
  | i32 (value : Int32)
  | u32 (value : UInt32)
  | f32 (bits : UInt32)
  | f16 (bits : UInt16)
  deriving DecidableEq

namespace Scalar

/-- Whether all bits are clear. A negative float zero is not a zero in this sense. -/
def isZero : Scalar → Bool
  | .bool value => !value
  | .i32 value => value = 0
  | .u32 value => value = 0
  | .f32 bits => bits = 0
  | .f16 bits => bits = 0

def describe : Scalar → String
  | .bool value => Text.tuple "Bool" [toString value]
  | .i32 value => Text.tuple "I32" [toString value.toInt]
  | .u32 value => Text.tuple "U32" [toString value]
  | .f32 bits => Text.tuple "F32" [toString bits]
  | .f16 bits => Text.tuple "F16" [toString bits]

end Scalar
end Shader
