import Shader.Binary.Operand

/-!
Members of the target's enumerations, as the words that stand for them.
-/
namespace Shader.Binary

/-- A feature of the target that a module declares it needs. -/
structure Capability where
  code : Word
  deriving DecidableEq

/-! Features. -/
namespace Capability

def shader : Capability := ⟨1⟩
def float16 : Capability := ⟨9⟩
def sampleRateShading : Capability := ⟨35⟩
def inputAttachment : Capability := ⟨40⟩
def sampled1D : Capability := ⟨43⟩
def image1D : Capability := ⟨44⟩
def sampledCubeArray : Capability := ⟨45⟩
def storageImageExtendedFormats : Capability := ⟨49⟩
def imageQuery : Capability := ⟨50⟩
def derivativeControl : Capability := ⟨51⟩
def groupNonUniform : Capability := ⟨61⟩
def groupNonUniformBallot : Capability := ⟨64⟩
def storageBuffer16BitAccess : Capability := ⟨4433⟩
def uniformAndStorageBuffer16BitAccess : Capability := ⟨4434⟩
def storageInputOutput16 : Capability := ⟨4436⟩
def dotProductInput4x8BitPacked : Capability := ⟨6018⟩
def dotProduct : Capability := ⟨6019⟩

end Capability

/-! Facts about an id that are not part of its type. -/
namespace Decoration

def block : Word := 2
def colMajor : Word := 5
def arrayStride : Word := 6
def matrixStride : Word := 7
def builtIn : Word := 11
def noPerspective : Word := 13
def flat : Word := 14
def centroid : Word := 16
def sample : Word := 17
def invariant : Word := 18
def nonWritable : Word := 24
def nonReadable : Word := 25
def location : Word := 30
def index : Word := 32
def binding : Word := 33
def descriptorSet : Word := 34
def offset : Word := 35
def inputAttachmentIndex : Word := 43

end Decoration

/-! Where a variable lives. -/
namespace StorageClass

def uniformConstant : Word := 0
def input : Word := 1
def uniform : Word := 2
def output : Word := 3
def workgroup : Word := 4
def privateLocal : Word := 6
def functionLocal : Word := 7
def pushConstant : Word := 9
def storageBuffer : Word := 12

end StorageClass

/-! Values the pipeline provides or consumes. -/
namespace BuiltIn

def position : Word := 0
def pointSize : Word := 1
def fragCoord : Word := 15
def frontFacing : Word := 17
def sampleId : Word := 18
def sampleMask : Word := 20
def fragDepth : Word := 22
def numWorkgroups : Word := 24
def workgroupId : Word := 26
def localInvocationId : Word := 27
def globalInvocationId : Word := 28
def localInvocationIndex : Word := 29
def subgroupSize : Word := 36
def subgroupLocalInvocationId : Word := 41
def vertexIndex : Word := 42
def instanceIndex : Word := 43

end BuiltIn

/-! Modes of an entry point. -/
namespace ExecutionMode

def originUpperLeft : Word := 7
def depthReplacing : Word := 12
def localSize : Word := 17

end ExecutionMode

/-! Kinds of entry points. -/
namespace ExecutionModel

def vertex : Word := 0
def fragment : Word := 4
def glCompute : Word := 5

end ExecutionModel

/-! Dimensions of an image. -/
namespace Dim

def dim1D : Word := 0
def dim2D : Word := 1
def dim3D : Word := 2
def dimCube : Word := 3
def dimSubpassData : Word := 6

end Dim

/-! Texel formats of an image. -/
namespace ImageFormat

def unknown : Word := 0
def rgba32f : Word := 1
def rgba16f : Word := 2
def r32f : Word := 3
def rgba8 : Word := 4
def rgba8Snorm : Word := 5
def rg32f : Word := 6
def r8 : Word := 15
def rgba32i : Word := 21
def rgba16i : Word := 22
def rgba8i : Word := 23
def r32i : Word := 24
def rg32i : Word := 25
def rgba32ui : Word := 30
def rgba16ui : Word := 31
def rgba8ui : Word := 32
def r32ui : Word := 33
def rg32ui : Word := 35

end ImageFormat

/-! Instructions of the extended set `GLSL.std.450`. -/
namespace Glsl

def roundEven : Word := 2
def trunc : Word := 3
def fAbs : Word := 4
def sAbs : Word := 5
def fSign : Word := 6
def sSign : Word := 7
def floor : Word := 8
def ceil : Word := 9
def fract : Word := 10
def radians : Word := 11
def degrees : Word := 12
def sin : Word := 13
def cos : Word := 14
def tan : Word := 15
def asin : Word := 16
def acos : Word := 17
def atan : Word := 18
def sinh : Word := 19
def cosh : Word := 20
def tanh : Word := 21
def asinh : Word := 22
def acosh : Word := 23
def atanh : Word := 24
def atan2 : Word := 25
def pow : Word := 26
def exp : Word := 27
def log : Word := 28
def exp2 : Word := 29
def log2 : Word := 30
def sqrt : Word := 31
def inverseSqrt : Word := 32
def determinant : Word := 33
def modfStruct : Word := 36
def fMin : Word := 37
def uMin : Word := 38
def sMin : Word := 39
def fMax : Word := 40
def uMax : Word := 41
def sMax : Word := 42
def uClamp : Word := 44
def sClamp : Word := 45
def fMix : Word := 46
def step : Word := 48
def smoothStep : Word := 49
def fma : Word := 50
def frexpStruct : Word := 52
def ldexp : Word := 53
def packSnorm4x8 : Word := 54
def packUnorm4x8 : Word := 55
def packSnorm2x16 : Word := 56
def packUnorm2x16 : Word := 57
def packHalf2x16 : Word := 58
def unpackSnorm2x16 : Word := 60
def unpackUnorm2x16 : Word := 61
def unpackHalf2x16 : Word := 62
def unpackSnorm4x8 : Word := 63
def unpackUnorm4x8 : Word := 64
def length : Word := 66
def distance : Word := 67
def cross : Word := 68
def normalize : Word := 69
def faceForward : Word := 70
def reflect : Word := 71
def refract : Word := 72
def nClamp : Word := 81

end Glsl

/-! Addressing and memory of a shader module. -/
namespace Addressing

def logical : Word := 0

end Addressing

namespace Memory

def glsl450 : Word := 1

end Memory

/-! Which invocations an instruction concerns. -/
namespace Scope

def workgroup : Word := 2
def subgroup : Word := 3

end Scope

/-! What a barrier orders; a barrier orders the union of its bits. -/
namespace Semantics

def acquireRelease : Word := 8
def uniformMemory : Word := 64
def workgroupMemory : Word := 256
def imageMemory : Word := 2048

end Semantics

/-- The word for no control hint on a selection, loop or function. -/
def noControl : Word := 0

end Shader.Binary
