import Shader.Spelling

/-!
Operators, library functions and the attributes of a shader's interface.
-/
namespace Shader

/-- Operators on two values. `logicalAnd` and `logicalOr` are the short-circuiting ones, which have no
single instruction. -/
inductive BinaryOp where
  | add | subtract | multiply | divide | modulo | and | or | xor | equal | notEqual | lessThan | greaterThan
  | lessThanEqual | greaterThanEqual | shiftLeft | shiftRight | logicalAnd | logicalOr
  deriving DecidableEq

instance : Spelled BinaryOp where
  members := (List.range 18).map BinaryOp.ofNat
  spelling
    | .add => "Add"
    | .subtract => "Subtract"
    | .multiply => "Multiply"
    | .divide => "Divide"
    | .modulo => "Modulo"
    | .and => "And"
    | .or => "Or"
    | .xor => "Xor"
    | .equal => "Equal"
    | .notEqual => "NotEqual"
    | .lessThan => "LessThan"
    | .greaterThan => "GreaterThan"
    | .lessThanEqual => "LessThanEqual"
    | .greaterThanEqual => "GreaterThanEqual"
    | .shiftLeft => "ShiftLeft"
    | .shiftRight => "ShiftRight"
    | .logicalAnd => "LogicalAnd"
    | .logicalOr => "LogicalOr"

/-- Operators on one value. -/
inductive UnaryOp where
  | complement
  | negation
  | not
  deriving DecidableEq

instance : Spelled UnaryOp where
  members := [.complement, .negation, .not]
  spelling
    | .complement => "Complement"
    | .negation => "Negation"
    | .not => "Not"

/-- Library functions of the shading language. The last ten are expected to have been replaced by
instructions before lowering. -/
inductive BuiltinFn where
  | abs | acos | acosh | all | any | asin | asinh | atan | atan2 | atanh | ceil | clamp | cos | cosh
  | countOneBits | cross | degrees | determinant | distance | dpdx | dpdxCoarse | dpdxFine | dpdy
  | dpdyCoarse | dpdyFine | exp | exp2 | extractBits | faceForward | floor | fma | fract | frexp | fwidth
  | fwidthCoarse | fwidthFine | insertBits | inverseSqrt | ldexp | length | log | log2 | max | min | mix
  | modf | normalize | pack2x16Float | pack2x16Snorm | pack2x16Unorm | pack4x8Snorm | pack4x8Unorm | pow
  | quantizeToF16 | radians | reflect | refract | reverseBits | round | sign | sin | sinh | smoothstep
  | sqrt | step | storageBarrier | subgroupBallot | subgroupBroadcast | tan | tanh | textureBarrier
  | textureNumLevels | textureNumSamples | transpose | trunc | unpack2x16Float | unpack2x16Snorm
  | unpack2x16Unorm | unpack4x8Snorm | unpack4x8Unorm | workgroupBarrier | arrayLength | atomicAdd
  | countLeadingZeros | dot | firstLeadingBit | select | textureDimensions | textureLoad | textureSample
  | textureStore
  deriving DecidableEq

instance : Spelled BuiltinFn where
  members := (List.range 91).map BuiltinFn.ofNat
  spelling
    | .abs => "Abs"
    | .acos => "Acos"
    | .acosh => "Acosh"
    | .all => "All"
    | .any => "Any"
    | .asin => "Asin"
    | .asinh => "Asinh"
    | .atan => "Atan"
    | .atan2 => "Atan2"
    | .atanh => "Atanh"
    | .ceil => "Ceil"
    | .clamp => "Clamp"
    | .cos => "Cos"
    | .cosh => "Cosh"
    | .countOneBits => "CountOneBits"
    | .cross => "Cross"
    | .degrees => "Degrees"
    | .determinant => "Determinant"
    | .distance => "Distance"
    | .dpdx => "Dpdx"
    | .dpdxCoarse => "DpdxCoarse"
    | .dpdxFine => "DpdxFine"
    | .dpdy => "Dpdy"
    | .dpdyCoarse => "DpdyCoarse"
    | .dpdyFine => "DpdyFine"
    | .exp => "Exp"
    | .exp2 => "Exp2"
    | .extractBits => "ExtractBits"
    | .faceForward => "FaceForward"
    | .floor => "Floor"
    | .fma => "Fma"
    | .fract => "Fract"
    | .frexp => "Frexp"
    | .fwidth => "Fwidth"
    | .fwidthCoarse => "FwidthCoarse"
    | .fwidthFine => "FwidthFine"
    | .insertBits => "InsertBits"
    | .inverseSqrt => "InverseSqrt"
    | .ldexp => "Ldexp"
    | .length => "Length"
    | .log => "Log"
    | .log2 => "Log2"
    | .max => "Max"
    | .min => "Min"
    | .mix => "Mix"
    | .modf => "Modf"
    | .normalize => "Normalize"
    | .pack2x16Float => "Pack2x16Float"
    | .pack2x16Snorm => "Pack2x16Snorm"
    | .pack2x16Unorm => "Pack2x16Unorm"
    | .pack4x8Snorm => "Pack4x8Snorm"
    | .pack4x8Unorm => "Pack4x8Unorm"
    | .pow => "Pow"
    | .quantizeToF16 => "QuantizeToF16"
    | .radians => "Radians"
    | .reflect => "Reflect"
    | .refract => "Refract"
    | .reverseBits => "ReverseBits"
    | .round => "Round"
    | .sign => "Sign"
    | .sin => "Sin"
    | .sinh => "Sinh"
    | .smoothstep => "Smoothstep"
    | .sqrt => "Sqrt"
    | .step => "Step"
    | .storageBarrier => "StorageBarrier"
    | .subgroupBallot => "SubgroupBallot"
    | .subgroupBroadcast => "SubgroupBroadcast"
    | .tan => "Tan"
    | .tanh => "Tanh"
    | .textureBarrier => "TextureBarrier"
    | .textureNumLevels => "TextureNumLevels"
    | .textureNumSamples => "TextureNumSamples"
    | .transpose => "Transpose"
    | .trunc => "Trunc"
    | .unpack2x16Float => "Unpack2x16Float"
    | .unpack2x16Snorm => "Unpack2x16Snorm"
    | .unpack2x16Unorm => "Unpack2x16Unorm"
    | .unpack4x8Snorm => "Unpack4x8Snorm"
    | .unpack4x8Unorm => "Unpack4x8Unorm"
    | .workgroupBarrier => "WorkgroupBarrier"
    | .arrayLength => "ArrayLength"
    | .atomicAdd => "AtomicAdd"
    | .countLeadingZeros => "CountLeadingZeros"
    | .dot => "Dot"
    | .firstLeadingBit => "FirstLeadingBit"
    | .select => "Select"
    | .textureDimensions => "TextureDimensions"
    | .textureLoad => "TextureLoad"
    | .textureSample => "TextureSample"
    | .textureStore => "TextureStore"

/-- A library function as diagnostics write it: its spelling with a small first letter. -/
def BuiltinFn.text (fn : BuiltinFn) : String :=
  match (spelling fn).toList with
  | [] => ""
  | first :: rest => String.ofList (first.toLower :: rest)

/-- Functions that are a single instruction of the target. -/
inductive TargetFn where
  | none | arrayLength | atomicIAdd | atomicISub | atomicAnd | atomicCompareExchange | atomicExchange
  | atomicLoad | atomicOr | atomicSMax | atomicSMin | atomicStore | atomicUMax | atomicUMin | atomicXor
  | dot | imageDrefGather | imageFetch | imageGather | imageQuerySize | imageQuerySizeLod | imageRead
  | imageSampleImplicitLod | imageSampleExplicitLod | imageSampleDrefImplicitLod
  | imageSampleDrefExplicitLod | imageWrite | matrixTimesMatrix | matrixTimesScalar | matrixTimesVector
  | sampledImage | sDot | select | uDot | vectorTimesMatrix | vectorTimesScalar
  deriving DecidableEq

instance : Spelled TargetFn where
  members := (List.range 36).map TargetFn.ofNat
  spelling
    | .none => "None"
    | .arrayLength => "ArrayLength"
    | .atomicIAdd => "AtomicIAdd"
    | .atomicISub => "AtomicISub"
    | .atomicAnd => "AtomicAnd"
    | .atomicCompareExchange => "AtomicCompareExchange"
    | .atomicExchange => "AtomicExchange"
    | .atomicLoad => "AtomicLoad"
    | .atomicOr => "AtomicOr"
    | .atomicSMax => "AtomicSMax"
    | .atomicSMin => "AtomicSMin"
    | .atomicStore => "AtomicStore"
    | .atomicUMax => "AtomicUMax"
    | .atomicUMin => "AtomicUMin"
    | .atomicXor => "AtomicXor"
    | .dot => "Dot"
    | .imageDrefGather => "ImageDrefGather"
    | .imageFetch => "ImageFetch"
    | .imageGather => "ImageGather"
    | .imageQuerySize => "ImageQuerySize"
    | .imageQuerySizeLod => "ImageQuerySizeLod"
    | .imageRead => "ImageRead"
    | .imageSampleImplicitLod => "ImageSampleImplicitLod"
    | .imageSampleExplicitLod => "ImageSampleExplicitLod"
    | .imageSampleDrefImplicitLod => "ImageSampleDrefImplicitLod"
    | .imageSampleDrefExplicitLod => "ImageSampleDrefExplicitLod"
    | .imageWrite => "ImageWrite"
    | .matrixTimesMatrix => "MatrixTimesMatrix"
    | .matrixTimesScalar => "MatrixTimesScalar"
    | .matrixTimesVector => "MatrixTimesVector"
    | .sampledImage => "SampledImage"
    | .sDot => "SDot"
    | .select => "Select"
    | .uDot => "UDot"
    | .vectorTimesMatrix => "VectorTimesMatrix"
    | .vectorTimesScalar => "VectorTimesScalar"

/-- Values the pipeline provides or consumes, attached to interface variables. -/
inductive BuiltinValue where
  | undefined | fragDepth | frontFacing | globalInvocationId | instanceIndex | localInvocationId
  | localInvocationIndex | numWorkgroups | pointSize | position | sampleIndex | sampleMask
  | subgroupInvocationId | subgroupSize | vertexIndex | workgroupId
  deriving DecidableEq

instance : Spelled BuiltinValue where
  members := (List.range 16).map BuiltinValue.ofNat
  spelling
    | .undefined => "Undefined"
    | .fragDepth => "FragDepth"
    | .frontFacing => "FrontFacing"
    | .globalInvocationId => "GlobalInvocationId"
    | .instanceIndex => "InstanceIndex"
    | .localInvocationId => "LocalInvocationId"
    | .localInvocationIndex => "LocalInvocationIndex"
    | .numWorkgroups => "NumWorkgroups"
    | .pointSize => "PointSize"
    | .position => "Position"
    | .sampleIndex => "SampleIndex"
    | .sampleMask => "SampleMask"
    | .subgroupInvocationId => "SubgroupInvocationId"
    | .subgroupSize => "SubgroupSize"
    | .vertexIndex => "VertexIndex"
    | .workgroupId => "WorkgroupId"

/-- How an input is interpolated over a primitive. -/
inductive InterpolationType where
  | perspective
  | linear
  | flat
  deriving DecidableEq

instance : Spelled InterpolationType where
  members := [.perspective, .linear, .flat]
  spelling
    | .perspective => "Perspective"
    | .linear => "Linear"
    | .flat => "Flat"

/-- Where in a pixel an input is interpolated. -/
inductive InterpolationSampling where
  | undefined
  | center
  | centroid
  | sample
  deriving DecidableEq

instance : Spelled InterpolationSampling where
  members := [.undefined, .center, .centroid, .sample]
  spelling
    | .undefined => "Undefined"
    | .center => "Center"
    | .centroid => "Centroid"
    | .sample => "Sample"

/-- Interpolation of an interface variable. -/
structure Interpolation where
  ty : InterpolationType
  sampling : InterpolationSampling
  deriving DecidableEq

/-- Interface attributes of an input or output variable. -/
structure IoAttributes where
  location : Option UInt32 := none
  blendSource : Option UInt32 := none
  interpolation : Option Interpolation := none
  builtin : Option BuiltinValue := none
  invariant : Bool := false
  deriving DecidableEq

/-- Where a resource is bound. -/
structure BindingPoint where
  group : UInt32
  binding : UInt32
  deriving DecidableEq

/-- The pipeline stage a function is the entry point of. -/
inductive Stage where
  | none
  | vertex
  | fragment
  | compute
  deriving DecidableEq

instance : Spelled Stage where
  members := [.none, .vertex, .fragment, .compute]
  spelling
    | .none => "None"
    | .vertex => "Vertex"
    | .fragment => "Fragment"
    | .compute => "Compute"

end Shader
