import Shader.Lower.Basic
import Shader.Ty.Normal

/-!
Ids of types.

A type is declared when it is first used, after the types it is built from. Types with one normal form
share one declaration.
-/
namespace Shader.Lower

open Binary

/-- The storage class of an address space. -/
def storageClass : AddressSpace → Except Fault Word
  | .handle => .ok StorageClass.uniformConstant
  | .functionLocal => .ok StorageClass.functionLocal
  | .input => .ok StorageClass.input
  | .privateLocal => .ok StorageClass.privateLocal
  | .pushConstant => .ok StorageClass.pushConstant
  | .output => .ok StorageClass.output
  | .storage => .ok StorageClass.storageBuffer
  | .uniform => .ok StorageClass.uniform
  | .workgroup => .ok StorageClass.workgroup
  | .undefined => .error (.addressSpace .undefined)

/-- The id of a type in normal form, whose declaration is `declaration` of a new id. -/
def declareType (ty : Ty) (declaration : Word → Lower Unit) : Lower Word :=
  remember .types ty do
    let id ← fresh
    declaration id
    return id

/-- The id of the unsigned integer type. -/
def wordTypeId : Lower Word :=
  declareType .u32 fun id => declare .typeInt [.id id, .literal 32, .literal 0]

/-- The id of the float type. -/
def floatTypeId : Lower Word :=
  declareType .f32 fun id => declare .typeFloat [.id id, .literal 32]

/-- The id of an unsigned integer constant. -/
def wordConstantId (value : Word) : Lower Word := do
  let constant ← intern (.scalar (.u32 value))
  remember .constants constant do
    let ty ← wordTypeId
    let id ← fresh
    declare .constant [.id ty, .id id, .literal value]
    return id

/-- How an image is used. -/
inductive ImageUse where
  | sampled
  | multisampled
  | storage (format : TexelFormat)
  | attachment
  deriving DecidableEq

namespace ImageUse

/-- Whether a texel has several samples. -/
def multisampledWord : ImageUse → Word
  | .multisampled => 1
  | _ => 0

/-- Whether an image is used with a sampler, or without. -/
def sampledWord : ImageUse → Word
  | .sampled | .multisampled => 1
  | .storage _ | .attachment => 2

/-- The capability an image of a given use and dimension needs. -/
def dimCapability? : ImageUse → TextureDim → Option Capability
  | .sampled, .d1 => some .sampled1D
  | .storage _, .d1 => some .image1D
  | .sampled, .cubeArray => some .sampledCubeArray
  | .attachment, _ => some .inputAttachment
  | _, _ => none

/-- The dimension of an image of a given use. -/
def dim (use : ImageUse) (dim : TextureDim) : Except Fault Word :=
  match use, dim with
  | .attachment, _ => .ok Dim.dimSubpassData
  | _, .d1 => .ok Dim.dim1D
  | _, .d2 | _, .d2Array => .ok Dim.dim2D
  | _, .d3 => .ok Dim.dim3D
  | _, .cube | _, .cubeArray => .ok Dim.dimCube
  | _, .none => .error (.textureDimension .none)

end ImageUse

open ImageFormat in
/-- The image format of a texel format. -/
def imageFormat : TexelFormat → Except Fault Word
  | .bgra8Unorm => .error .bgraStorage
  | .r8Unorm => .ok r8
  | .r32Float => .ok r32f
  | .r32Sint => .ok r32i
  | .r32Uint => .ok r32ui
  | .rg32Float => .ok rg32f
  | .rg32Sint => .ok rg32i
  | .rg32Uint => .ok rg32ui
  | .rgba16Float => .ok rgba16f
  | .rgba16Sint => .ok rgba16i
  | .rgba16Uint => .ok rgba16ui
  | .rgba32Float => .ok rgba32f
  | .rgba32Sint => .ok rgba32i
  | .rgba32Uint => .ok rgba32ui
  | .rgba8Sint => .ok rgba8i
  | .rgba8Snorm => .ok rgba8Snorm
  | .rgba8Uint => .ok rgba8ui
  | .rgba8Unorm => .ok rgba8
  | .undefined => .ok unknown

/-- Whether a texel format is one that needs a capability of its own. -/
def isExtendedFormat : TexelFormat → Bool
  | .r8Unorm | .rg32Float | .rg32Sint | .rg32Uint => true
  | _ => false

/-- The format word of an image. Only storage images have a known format. -/
def ImageUse.format : ImageUse → Lower Word
  | .storage format => do
    let word ← check (imageFormat format)
    if isExtendedFormat format then
      require .storageImageExtendedFormats
    return word
  | _ => return ImageFormat.unknown

/-- Declare an image type over texels whose type has id `sampled`. -/
def declareImage (use : ImageUse) (dim : TextureDim) (sampled id : Word) : Lower Unit := do
  let dimWord ← check (use.dim dim)
  if let some capability := use.dimCapability? dim then
    require capability
  let format ← use.format
  declare .typeImage
    [.id id, .id sampled, .literal dimWord, .literal 0, .literal (if dim.isArrayed then 1 else 0),
      .literal use.multisampledWord, .literal use.sampledWord, .literal format]

/-- The matrix a type holds through arrays: its element and its number of rows. -/
def nestedMatrix? : Ty → Option (Ty × UInt32)
  | .array elem _ _ => nestedMatrix? elem
  | .matrix elem _ rows => some (elem, rows)
  | _ => none

/-- Decorate and name a member of a struct. -/
def decorateMember (id : Word) (index : Nat) (member : Member) : Lower Unit := do
  let position := UInt32.ofNat index
  let decorateWith (decoration : List Word) : Lower Unit :=
    add .annotations .memberDecorate (.id id :: (position :: decoration).map .literal)
  decorateWith [Decoration.offset, member.offset]
  if let some (elem, rows) := nestedMatrix? member.ty then
    match elem.byteSize? with
    | none => fail (.matrixElement elem)
    | some size => do
      decorateWith [Decoration.colMajor]
      decorateWith [Decoration.matrixStride, (if rows = 2 then 2 else 4) * size]
  if let some name := member.name then
    add .names .memberName [.id id, .literal position, .text name]

/-- Declare a struct type; `typeId` gives the ids of its members' types. -/
def declareStruct (m : Module) (typeId : Ty → Lower Word) (struct : StructId) (id : Word) :
    Lower Unit := do
  let definition ← check (m.structDef struct)
  let members ← definition.members.zipIdx.mapM fun (member, index) => do
    let memberType ← typeId member.ty
    decorateMember id index member
    return memberType
  declare .typeStruct (.id id :: members.map .id)
  if definition.block then
    decorate id [Decoration.block]
  if let some name := definition.name then
    nameId id name

/-- The id of a type; `structType` gives the ids of the structs it refers to. -/
def typeIdWith (structType : StructId → Lower Word) : Ty → Lower Word
  | .void => declareType .void fun id => declare .typeVoid [.id id]
  | .bool => declareType .bool fun id => declare .typeBool [.id id]
  | .i32 => declareType .i32 fun id => declare .typeInt [.id id, .literal 32, .literal 1]
  | .u32 => wordTypeId
  | .f32 => floatTypeId
  | .f16 => declareType .f16 fun id => do
    require .float16
    require .uniformAndStorageBuffer16BitAccess
    require .storageBuffer16BitAccess
    declare .typeFloat [.id id, .literal 16]
  | .vector elem width => declareType (.vector elem width) fun id => do
    let elemId ← typeIdWith structType elem
    declare .typeVector [.id id, .id elemId, .literal width]
  | .matrix elem columns rows => declareType (.matrix elem columns rows) fun id => do
    let column ← declareType (.vector elem rows) fun id => do
      let elemId ← typeIdWith structType elem
      declare .typeVector [.id id, .id elemId, .literal rows]
    declare .typeMatrix [.id id, .id column, .literal columns]
  | .array elem count stride => declareType (.array elem.normal count stride) fun id => do
    let elemId ← typeIdWith structType elem
    match count with
    | .constant count => do
      let length ← wordConstantId count
      declare .typeArray [.id id, .id elemId, .id length]
    | .runtime => declare .typeRuntimeArray [.id id, .id elemId]
    decorate id [Decoration.arrayStride, stride]
  | .atomic inner => typeIdWith structType inner
  | .pointer space store access => declareType (.pointer space store.normal access) fun id => do
    let storeId ← typeIdWith structType store
    let storage ← check (storageClass space)
    declare .typePointer [.id id, .literal storage, .id storeId]
  | .struct struct => structType struct
  | .sampler _ => declareType (.sampler .sampler) fun id => declare .typeSampler [.id id]
  | .sampledTexture dim sampled => declareType (.sampledTexture dim sampled) fun id => do
    declareImage .sampled dim (← typeIdWith structType sampled) id
  | .multisampledTexture dim sampled => declareType (.multisampledTexture dim sampled) fun id => do
    declareImage .multisampled dim (← typeIdWith structType sampled) id
  | .depthTexture dim => declareType (.sampledTexture dim .f32) fun id => do
    declareImage .sampled dim (← floatTypeId) id
  | .depthMultisampledTexture dim => declareType (.multisampledTexture dim .f32) fun id => do
    declareImage .multisampled dim (← floatTypeId) id
  | .storageTexture dim format _ sampled =>
    declareType (.storageTexture dim format .read sampled) fun id => do
      declareImage (.storage format) dim (← typeIdWith structType sampled) id
  | .inputAttachment sampled => declareType (.inputAttachment sampled) fun id => do
    declareImage .attachment .d2 (← typeIdWith structType sampled) id
  | .sampledImage image => declareType (.sampledImage image.normal) fun id => do
    let imageId ← typeIdWith structType image
    declare .typeSampledImage [.id id, .id imageId]

/-- The id of a struct type whose members refer to structs at most `depth` deep. -/
def structTypeWithin (m : Module) : (depth : Nat) → StructId → Lower Word
  | 0, _ => fail .circular
  | depth + 1, struct =>
    declareType (.struct struct) (declareStruct m (typeIdWith (structTypeWithin m depth)) struct)

/-- The id of a type. Structs that do not contain themselves nest at most as deep as there are
structs. -/
def typeId (m : Module) (ty : Ty) : Lower Word :=
  typeIdWith (structTypeWithin m (m.structs.size + 1)) ty

end Shader.Lower
