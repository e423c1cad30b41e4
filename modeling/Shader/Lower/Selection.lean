import Shader.Binary.Enumerant
import Shader.Fault

/-!
Which instruction does the work of an operator, a conversion or a library function.

Operators are chosen by the component type of their operands or of their result. A type that an operator
does not work on is a fault.
-/
namespace Shader.Selection

open Binary Glsl

/-- Choose by signedness, or by being a float. -/
def byNumber (ty : Ty) (signed unsigned float : Opcode) : Option Opcode :=
  if ty.isSigned then some signed
  else if ty.isUnsigned then some unsigned
  else if ty.isFloat then some float
  else none

/-- Choose an equality by the operands' type, truth values included. -/
def byOperand (ty : Ty) (boolean integer float : Opcode) : Option Opcode :=
  if ty.isBool then some boolean else byNumber ty integer integer float

/-- The instruction of an operator on operands of type `lhs` with a result of type `ty`, if it has one. -/
def binary? (op : BinaryOp) (ty lhs : Ty) : Option Opcode :=
  match op with
  | .add => some (if ty.isInteger then .iAdd else .fAdd)
  | .subtract => some (if ty.isInteger then .iSub else .fSub)
  | .multiply => byNumber ty .iMul .iMul .fMul
  | .divide => byNumber ty .sDiv .uDiv .fDiv
  | .modulo => byNumber ty .sRem .uMod .fRem
  | .and => if lhs.isInteger then some .bitwiseAnd else if lhs.isBool then some .logicalAnd else none
  | .or => if lhs.isInteger then some .bitwiseOr else if lhs.isBool then some .logicalOr else none
  | .xor => some .bitwiseXor
  | .equal => byOperand lhs .logicalEqual .iEqual .fOrdEqual
  | .notEqual => byOperand lhs .logicalNotEqual .iNotEqual .fOrdNotEqual
  | .lessThan => byNumber lhs .sLessThan .uLessThan .fOrdLessThan
  | .greaterThan => byNumber lhs .sGreaterThan .uGreaterThan .fOrdGreaterThan
  | .lessThanEqual => byNumber lhs .sLessThanEqual .uLessThanEqual .fOrdLessThanEqual
  | .greaterThanEqual => byNumber lhs .sGreaterThanEqual .uGreaterThanEqual .fOrdGreaterThanEqual
  | .shiftLeft => some .shiftLeftLogical
  | .shiftRight =>
    if lhs.isSigned then some .shiftRightArithmetic
    else if lhs.isUnsigned then some .shiftRightLogical
    else none
  | .logicalAnd | .logicalOr => none

/-- The instruction of an operator on two values. -/
def binary (op : BinaryOp) (ty lhs : Ty) : Except Fault Opcode :=
  match op with
  | .logicalAnd | .logicalOr => .error (.shortCircuit op)
  | _ =>
    match binary? op ty lhs with
    | some opcode => .ok opcode
    | none => .error (.binaryOperator op lhs)

/-- The instruction of an operator on one value with a result of type `ty`. -/
def unary (op : UnaryOp) (ty : Ty) : Except Fault Opcode :=
  match op with
  | .complement => .ok .not
  | .negation =>
    if ty.isFloat then .ok .fNegate
    else if ty.isSigned then .ok .sNegate
    else .error (.negation ty)
  | .not => .ok .logicalNot

/-- How a value is converted: by one instruction, by comparing it with the null constant of its type, or
by choosing between one and zero. -/
inductive Conversion where
  | direct (op : Opcode)
  | fromNull (op : Opcode)
  | choose (one zero : Scalar)
  deriving DecidableEq

/-- How a value of type `source` becomes one of type `target`. -/
def conversion (source target : Ty) : Except Fault Conversion :=
  let sameSize := source.byteSize? = target.byteSize?
  if target.isSigned && source.isFloat then .ok (.direct .convertFToS)
  else if target.isUnsigned && source.isFloat then .ok (.direct .convertFToU)
  else if target.isFloat && source.isSigned then .ok (.direct .convertSToF)
  else if target.isFloat && source.isUnsigned then .ok (.direct .convertUToF)
  else if target.isFloat && source.isFloat && !sameSize then .ok (.direct .fConvert)
  else if target.isInteger && source.isInteger && sameSize then .ok (.direct .bitcast)
  else if target.isBool then
    if source.isInteger then .ok (.fromNull .iNotEqual)
    else if source.isFloat then .ok (.fromNull .fUnordNotEqual)
    else .error (.conversion source target)
  else if source.isBool then
    match target.deepestElement with
    | .f32 => .ok (.choose (.f32 0x3F800000) (.f32 0))
    | .f16 => .ok (.choose (.f16 0x3C00) (.f16 0))
    | .i32 => .ok (.choose (.i32 1) (.i32 0))
    | .u32 => .ok (.choose (.u32 1) (.u32 0))
    | other => .error (.conversionOfBool other)
  else .error (.conversion source target)

/-- How a library function is called: by an instruction, by an instruction of the extended set, or as a
barrier over some memory. -/
inductive Form where
  | instruction (op : Opcode)
  | extended (code : Word)
  | barrier (memory : Word)
  deriving DecidableEq

/-- Choose an extended instruction by the result's type. -/
def byResult (ty : Ty) (float signed unsigned : Word) : Option Form :=
  if ty.isFloat then some (.extended float)
  else if ty.isSigned then some (.extended signed)
  else if ty.isUnsigned then some (.extended unsigned)
  else none

/-- Choose an extended instruction by the result's type, where there is none for unsigned integers. -/
def bySignedResult (ty : Ty) (float signed : Word) : Option Form :=
  if ty.isFloat then some (.extended float)
  else if ty.isSigned then some (.extended signed)
  else none

/-- How a library function with a result of type `ty` is called, if lowering knows it. -/
def builtin? (fn : BuiltinFn) (ty : Ty) : Option Form :=
  match fn with
  | .abs => bySignedResult ty fAbs sAbs
  | .acos => some (.extended acos)
  | .acosh => some (.extended acosh)
  | .all => some (.instruction .all)
  | .any => some (.instruction .any)
  | .asin => some (.extended asin)
  | .asinh => some (.extended asinh)
  | .atan => some (.extended atan)
  | .atan2 => some (.extended atan2)
  | .atanh => some (.extended atanh)
  | .ceil => some (.extended ceil)
  | .clamp => byResult ty nClamp sClamp uClamp
  | .cos => some (.extended cos)
  | .cosh => some (.extended cosh)
  | .countOneBits => some (.instruction .bitCount)
  | .cross => some (.extended cross)
  | .degrees => some (.extended degrees)
  | .determinant => some (.extended determinant)
  | .distance => some (.extended distance)
  | .dpdx => some (.instruction .dPdx)
  | .dpdxCoarse => some (.instruction .dPdxCoarse)
  | .dpdxFine => some (.instruction .dPdxFine)
  | .dpdy => some (.instruction .dPdy)
  | .dpdyCoarse => some (.instruction .dPdyCoarse)
  | .dpdyFine => some (.instruction .dPdyFine)
  | .exp => some (.extended exp)
  | .exp2 => some (.extended exp2)
  | .extractBits =>
    if ty.isSigned then some (.instruction .bitFieldSExtract)
    else if ty.isUnsigned then some (.instruction .bitFieldUExtract)
    else none
  | .faceForward => some (.extended faceForward)
  | .floor => some (.extended floor)
  | .fma => some (.extended fma)
  | .fract => some (.extended fract)
  | .frexp => some (.extended frexpStruct)
  | .fwidth => some (.instruction .fwidth)
  | .fwidthCoarse => some (.instruction .fwidthCoarse)
  | .fwidthFine => some (.instruction .fwidthFine)
  | .insertBits => some (.instruction .bitFieldInsert)
  | .inverseSqrt => some (.extended inverseSqrt)
  | .ldexp => some (.extended ldexp)
  | .length => some (.extended length)
  | .log => some (.extended log)
  | .log2 => some (.extended log2)
  | .max => byResult ty fMax sMax uMax
  | .min => byResult ty fMin sMin uMin
  | .mix => some (.extended fMix)
  | .modf => some (.extended modfStruct)
  | .normalize => some (.extended normalize)
  | .pack2x16Float => some (.extended packHalf2x16)
  | .pack2x16Snorm => some (.extended packSnorm2x16)
  | .pack2x16Unorm => some (.extended packUnorm2x16)
  | .pack4x8Snorm => some (.extended packSnorm4x8)
  | .pack4x8Unorm => some (.extended packUnorm4x8)
  | .pow => some (.extended pow)
  | .quantizeToF16 => some (.instruction .quantizeToF16)
  | .radians => some (.extended radians)
  | .reflect => some (.extended reflect)
  | .refract => some (.extended refract)
  | .reverseBits => some (.instruction .bitReverse)
  | .round => some (.extended roundEven)
  | .sign => bySignedResult ty fSign sSign
  | .sin => some (.extended sin)
  | .sinh => some (.extended sinh)
  | .smoothstep => some (.extended smoothStep)
  | .sqrt => some (.extended sqrt)
  | .step => some (.extended step)
  | .storageBarrier => some (.barrier Semantics.uniformMemory)
  | .subgroupBallot => some (.instruction .groupNonUniformBallot)
  | .subgroupBroadcast => some (.instruction .groupNonUniformBroadcast)
  | .tan => some (.extended tan)
  | .tanh => some (.extended tanh)
  | .textureBarrier => some (.barrier Semantics.imageMemory)
  | .textureNumLevels => some (.instruction .imageQueryLevels)
  | .textureNumSamples => some (.instruction .imageQuerySamples)
  | .transpose => some (.instruction .transpose)
  | .trunc => some (.extended trunc)
  | .unpack2x16Float => some (.extended unpackHalf2x16)
  | .unpack2x16Snorm => some (.extended unpackSnorm2x16)
  | .unpack2x16Unorm => some (.extended unpackUnorm2x16)
  | .unpack4x8Snorm => some (.extended unpackSnorm4x8)
  | .unpack4x8Unorm => some (.extended unpackUnorm4x8)
  | .workgroupBarrier => some (.barrier Semantics.workgroupMemory)
  | .arrayLength | .atomicAdd | .countLeadingZeros | .dot | .firstLeadingBit | .select
  | .textureDimensions | .textureLoad | .textureSample | .textureStore => none

/-- The capability a library function needs. -/
def builtinCapability? : BuiltinFn → Option Capability
  | .dpdxCoarse | .dpdxFine | .dpdyCoarse | .dpdyFine | .fwidthCoarse | .fwidthFine =>
    some .derivativeControl
  | .subgroupBallot | .subgroupBroadcast => some .groupNonUniformBallot
  | .textureNumLevels | .textureNumSamples => some .imageQuery
  | _ => none

/-- Whether a call of a library function is its argument: the result has type `ty`, the argument type
`arg`. -/
def isIdentity (fn : BuiltinFn) (ty arg : Ty) : Bool :=
  match fn with
  | .abs => ty.isUnsigned
  | .all | .any => arg = .bool
  | _ => false

/-- The instruction a function of the target is. -/
def target? : TargetFn → Option Opcode
  | .none => none
  | .arrayLength => some .arrayLength
  | .atomicIAdd => some .atomicIAdd
  | .atomicISub => some .atomicISub
  | .atomicAnd => some .atomicAnd
  | .atomicCompareExchange => some .atomicCompareExchange
  | .atomicExchange => some .atomicExchange
  | .atomicLoad => some .atomicLoad
  | .atomicOr => some .atomicOr
  | .atomicSMax => some .atomicSMax
  | .atomicSMin => some .atomicSMin
  | .atomicStore => some .atomicStore
  | .atomicUMax => some .atomicUMax
  | .atomicUMin => some .atomicUMin
  | .atomicXor => some .atomicXor
  | .dot => some .dot
  | .imageDrefGather => some .imageDrefGather
  | .imageFetch => some .imageFetch
  | .imageGather => some .imageGather
  | .imageQuerySize => some .imageQuerySize
  | .imageQuerySizeLod => some .imageQuerySizeLod
  | .imageRead => some .imageRead
  | .imageSampleImplicitLod => some .imageSampleImplicitLod
  | .imageSampleExplicitLod => some .imageSampleExplicitLod
  | .imageSampleDrefImplicitLod => some .imageSampleDrefImplicitLod
  | .imageSampleDrefExplicitLod => some .imageSampleDrefExplicitLod
  | .imageWrite => some .imageWrite
  | .matrixTimesMatrix => some .matrixTimesMatrix
  | .matrixTimesScalar => some .matrixTimesScalar
  | .matrixTimesVector => some .matrixTimesVector
  | .sampledImage => some .sampledImage
  | .sDot => some .sDot
  | .select => some .select
  | .uDot => some .uDot
  | .vectorTimesMatrix => some .vectorTimesMatrix
  | .vectorTimesScalar => some .vectorTimesScalar

/-- The capabilities a function of the target needs. -/
def targetCapabilities : TargetFn → List Capability
  | .imageQuerySize | .imageQuerySizeLod => [.imageQuery]
  | .sDot | .uDot => [.dotProduct, .dotProductInput4x8BitPacked]
  | _ => []

/-- The extension a function of the target needs. -/
def targetExtension? : TargetFn → Option String
  | .sDot | .uDot => some "SPV_KHR_integer_dot_product"
  | _ => none

end Shader.Selection
