import Shader.Ids
import Shader.Spelling

/-!
Types of values.

Types are plain trees and two types are the same when the trees are equal. Structs are the
exception: a type names the struct's definition in the module's table.
-/
namespace Shader

/-- Where the memory behind a pointer lives. -/
inductive AddressSpace where
  | undefined | functionLocal | privateLocal | workgroup | uniform | storage | handle | pushConstant | input
  | output
  deriving DecidableEq

instance : Spelled AddressSpace where
  members := (List.range 10).map AddressSpace.ofNat
  spelling
    | .undefined => "Undefined"
    | .functionLocal => "Function"
    | .privateLocal => "Private"
    | .workgroup => "Workgroup"
    | .uniform => "Uniform"
    | .storage => "Storage"
    | .handle => "Handle"
    | .pushConstant => "PushConstant"
    | .input => "In"
    | .output => "Out"

/-- What a pointer or a storage texture allows. -/
inductive Access where
  | read
  | write
  | readWrite
  deriving DecidableEq

instance : Spelled Access where
  members := [.read, .write, .readWrite]
  spelling
    | .read => "Read"
    | .write => "Write"
    | .readWrite => "ReadWrite"

/-- The shape of a texture's coordinates. -/
inductive TextureDim where
  | none | d1 | d2 | d2Array | d3 | cube | cubeArray
  deriving DecidableEq

instance : Spelled TextureDim where
  members := (List.range 7).map TextureDim.ofNat
  spelling
    | .none => "None"
    | .d1 => "D1"
    | .d2 => "D2"
    | .d2Array => "D2Array"
    | .d3 => "D3"
    | .cube => "Cube"
    | .cubeArray => "CubeArray"

/-- Whether the coordinates end in a layer. -/
def TextureDim.isArrayed : TextureDim → Bool
  | .d2Array | .cubeArray => true
  | _ => false

/-- How a texel of a storage texture is stored. -/
inductive TexelFormat where
  | bgra8Unorm | rgba8Unorm | rgba8Snorm | rgba8Uint | rgba8Sint | rgba16Uint | rgba16Sint | rgba16Float
  | r8Unorm | r32Uint | r32Sint | r32Float | rg32Uint | rg32Sint | rg32Float | rgba32Uint | rgba32Sint
  | rgba32Float | undefined
  deriving DecidableEq

instance : Spelled TexelFormat where
  members := (List.range 19).map TexelFormat.ofNat
  spelling
    | .bgra8Unorm => "Bgra8Unorm"
    | .rgba8Unorm => "Rgba8Unorm"
    | .rgba8Snorm => "Rgba8Snorm"
    | .rgba8Uint => "Rgba8Uint"
    | .rgba8Sint => "Rgba8Sint"
    | .rgba16Uint => "Rgba16Uint"
    | .rgba16Sint => "Rgba16Sint"
    | .rgba16Float => "Rgba16Float"
    | .r8Unorm => "R8Unorm"
    | .r32Uint => "R32Uint"
    | .r32Sint => "R32Sint"
    | .r32Float => "R32Float"
    | .rg32Uint => "Rg32Uint"
    | .rg32Sint => "Rg32Sint"
    | .rg32Float => "Rg32Float"
    | .rgba32Uint => "Rgba32Uint"
    | .rgba32Sint => "Rgba32Sint"
    | .rgba32Float => "Rgba32Float"
    | .undefined => "Undefined"

/-- Whether a sampler compares. -/
inductive SamplerKind where
  | sampler
  | comparison
  deriving DecidableEq

instance : Spelled SamplerKind where
  members := [.sampler, .comparison]
  spelling
    | .sampler => "Sampler"
    | .comparison => "Comparison"

/-- The number of elements of an array, or that it is only known when the shader runs. -/
inductive ArrayCount where
  | constant (count : UInt32)
  | runtime
  deriving DecidableEq

/-- A type of the module. A matrix is `columns` vectors, each `rows` wide. -/
inductive Ty where
  | void
  | bool
  | i32
  | u32
  | f32
  | f16
  | vector (elem : Ty) (width : UInt32)
  | matrix (elem : Ty) (columns rows : UInt32)
  | array (elem : Ty) (count : ArrayCount) (stride : UInt32)
  | atomic (inner : Ty)
  | pointer (space : AddressSpace) (store : Ty) (access : Access)
  | struct (id : StructId)
  | sampler (kind : SamplerKind)
  | sampledTexture (dim : TextureDim) (sampled : Ty)
  | multisampledTexture (dim : TextureDim) (sampled : Ty)
  | depthTexture (dim : TextureDim)
  | depthMultisampledTexture (dim : TextureDim)
  | storageTexture (dim : TextureDim) (format : TexelFormat) (access : Access) (sampled : Ty)
  | inputAttachment (sampled : Ty)
  | sampledImage (image : Ty)
  deriving DecidableEq

namespace Ty

/-- The column vector of a matrix. -/
def column? : Ty → Option Ty
  | .matrix elem _ rows => some (.vector elem rows)
  | _ => none

/-- The innermost element through vectors, matrices and arrays. -/
def deepestElement : Ty → Ty
  | .vector elem _ => elem.deepestElement
  | .matrix elem _ _ => elem.deepestElement
  | .array elem _ _ => elem.deepestElement
  | ty => ty

def isScalar : Ty → Bool
  | .bool | .i32 | .u32 | .f32 | .f16 => true
  | _ => false

def isFloatScalar : Ty → Bool
  | .f32 | .f16 => true
  | _ => false

def isIntegerScalar : Ty → Bool
  | .i32 | .u32 => true
  | _ => false

/-- The type an operator works on component by component: a vector's element, or the type itself. -/
def component : Ty → Ty
  | .vector elem _ => elem
  | ty => ty

/-- A float, or a vector of floats. -/
def isFloat (ty : Ty) : Bool := ty.component.isFloatScalar

/-- A signed integer, or a vector of them. -/
def isSigned (ty : Ty) : Bool := ty.component = .i32

/-- An unsigned integer, or a vector of them. -/
def isUnsigned (ty : Ty) : Bool := ty.component = .u32

/-- An integer, or a vector of integers. -/
def isInteger (ty : Ty) : Bool := ty.component.isIntegerScalar

/-- A truth value, or a vector of them. -/
def isBool (ty : Ty) : Bool := ty.component = .bool

/-- A half float, or a vector of them. -/
def isHalf (ty : Ty) : Bool := ty.component = .f16

/-- What a pointer points at. -/
def pointee? : Ty → Option Ty
  | .pointer _ store _ => some store
  | _ => none

/-- The bytes of a scalar, or of a vector built on one. -/
def byteSize? : Ty → Option UInt32
  | .bool | .i32 | .u32 | .f32 => some 4
  | .f16 => some 2
  | .vector elem width => elem.byteSize?.map (· * width)
  | _ => none

/-- The width of a vector, and one for anything else. -/
def width : Ty → UInt32
  | .vector _ width => width
  | _ => 1

end Ty

/-- A member of a struct, at a byte offset. -/
structure Member where
  name : Option String
  ty : Ty
  offset : UInt32
  deriving DecidableEq

/-- A struct definition. A `block` is the layout of a buffer. -/
structure StructDef where
  name : Option String
  members : List Member
  block : Bool
  deriving DecidableEq

def ArrayCount.describe : ArrayCount → String
  | .constant count => s!"Constant({count})"
  | .runtime => "Runtime"

/-- A type as diagnostics write it. -/
def Ty.describe : Ty → String
  | .void => "Void"
  | .bool => "Bool"
  | .i32 => "I32"
  | .u32 => "U32"
  | .f32 => "F32"
  | .f16 => "F16"
  | .vector elem width => Text.record "Vector" [("elem", elem.describe), ("width", toString width)]
  | .matrix elem columns rows =>
    Text.record "Matrix" [("elem", elem.describe), ("columns", toString columns), ("rows", toString rows)]
  | .array elem count stride =>
    Text.record "Array" [("elem", elem.describe), ("count", count.describe), ("stride", toString stride)]
  | .atomic inner => Text.tuple "Atomic" [inner.describe]
  | .pointer space store access =>
    Text.record "Pointer"
      [("address_space", spelling space), ("store", store.describe), ("access", spelling access)]
  | .struct id => Text.tuple "Struct" [id.describe]
  | .sampler kind => Text.tuple "Sampler" [spelling kind]
  | .sampledTexture dim sampled =>
    Text.record "SampledTexture" [("dim", spelling dim), ("sampled", sampled.describe)]
  | .multisampledTexture dim sampled =>
    Text.record "MultisampledTexture" [("dim", spelling dim), ("sampled", sampled.describe)]
  | .depthTexture dim => Text.record "DepthTexture" [("dim", spelling dim)]
  | .depthMultisampledTexture dim => Text.record "DepthMultisampledTexture" [("dim", spelling dim)]
  | .storageTexture dim format access sampled =>
    Text.record "StorageTexture"
      [("dim", spelling dim), ("format", spelling format), ("access", spelling access),
        ("sampled", sampled.describe)]
  | .inputAttachment sampled => Text.record "InputAttachment" [("sampled", sampled.describe)]
  | .sampledImage image => Text.tuple "SampledImage" [image.describe]

end Shader
