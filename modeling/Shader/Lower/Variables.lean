import Shader.Lower.ValueIds

/-!
Variables and their interface.

A local variable belongs to the function it is declared in, whatever block it stands in. Every other
variable belongs to the module and is declared with its decorations.
-/
namespace Shader.Lower

open Binary

/-- Options of a lowering. -/
structure Options where
  /-- Give variables in workgroup memory a null initializer. -/
  zeroInitWorkgroup : Bool := false
  deriving DecidableEq

/-- The capability a pipeline value needs. -/
def builtinValueCapability? : BuiltinValue → Option Capability
  | .sampleIndex => some .sampleRateShading
  | .subgroupInvocationId | .subgroupSize => some .groupNonUniform
  | _ => none

open BuiltIn in
/-- The word of a pipeline value. The position is that of a vertex when written and that of a fragment
when read. -/
def builtinValueWord (space : AddressSpace) : BuiltinValue → Except Fault Word
  | .undefined => .error .undefinedBuiltinValue
  | .fragDepth => .ok fragDepth
  | .frontFacing => .ok frontFacing
  | .globalInvocationId => .ok globalInvocationId
  | .instanceIndex => .ok instanceIndex
  | .localInvocationId => .ok localInvocationId
  | .localInvocationIndex => .ok localInvocationIndex
  | .numWorkgroups => .ok numWorkgroups
  | .pointSize => .ok pointSize
  | .position => .ok (if space = .output then position else fragCoord)
  | .sampleIndex => .ok sampleId
  | .sampleMask => .ok sampleMask
  | .subgroupInvocationId => .ok subgroupLocalInvocationId
  | .subgroupSize => .ok subgroupSize
  | .vertexIndex => .ok vertexIndex
  | .workgroupId => .ok workgroupId

/-- Decorate a variable with its interpolation. -/
def decorateInterpolation (id : Word) (interpolation : Interpolation) : Lower Unit := do
  match interpolation.ty with
  | .linear => decorate id [Decoration.noPerspective]
  | .flat => decorate id [Decoration.flat]
  | .perspective => pure ()
  match interpolation.sampling with
  | .centroid => decorate id [Decoration.centroid]
  | .sample => do
    require .sampleRateShading
    decorate id [Decoration.sample]
  | .center | .undefined => pure ()

/-- Decorate an input or output variable with its interface attributes. -/
def decorateInterface (id : Word) (attributes : IoAttributes) (space : AddressSpace) : Lower Unit := do
  if let some location := attributes.location then
    decorate id [Decoration.location, location]
  if let some source := attributes.blendSource then
    decorate id [Decoration.index, source]
  if let some interpolation := attributes.interpolation then
    decorateInterpolation id interpolation
  if let some builtin := attributes.builtin then
    let word ← check (builtinValueWord space builtin)
    if let some capability := builtinValueCapability? builtin then
      require capability
    decorate id [Decoration.builtIn, word]
  if attributes.invariant then
    decorate id [Decoration.invariant]

/-- What a resource allows: a storage texture says so itself, a buffer's pointer says it for the buffer. -/
def resourceAccess? (store : Ty) (access : Access) : Option Access :=
  match store with
  | .storageTexture _ _ textureAccess _ => some textureAccess
  | .struct _ => some access
  | _ => none

/-- Decorate a resource with where it is bound, what it allows and which attachment it reads. -/
def decorateResource (inst : InstId) (declaration : Variable) (id : Word) (store : Ty) (access : Access) :
    Lower Unit := do
  match declaration.bindingPoint with
  | none => fail (.noBindingPoint inst)
  | some point => do
    decorate id [Decoration.descriptorSet, point.group]
    decorate id [Decoration.binding, point.binding]
  match resourceAccess? store access with
  | some .read => decorate id [Decoration.nonWritable]
  | some .write => decorate id [Decoration.nonReadable]
  | _ => pure ()
  if let some index := declaration.attachmentIndex then
    match store with
    | .inputAttachment _ => decorate id [Decoration.inputAttachmentIndex, index]
    | _ => fail (.attachmentIndex inst)

/-- Declare a local variable: an initializer is stored where the declaration stands, and a variable
without one starts as null. -/
def declareLocal (m : Module) (inst : InstId) (declaration : Variable) (id typeWord : Word) (store : Ty) :
    Lower Unit := do
  if (← get).code.isNone then
    fail (.localVarOutsideFunction inst)
  match declaration.initializer with
  | some initializer => do
    emitLocal [.id typeWord, .id id, .literal StorageClass.functionLocal]
    let value ← valueId m initializer
    emit .store [.id id, .id value]
  | none => do
    let null ← nullId m store
    emitLocal [.id typeWord, .id id, .literal StorageClass.functionLocal, .id null]

/-- Declare a variable of the module. -/
def declareGlobal (id typeWord storage : Word) (initializer : Option Word) : Lower Unit :=
  declare .variableDecl
    ([.id typeWord, .id id, .literal storage] ++ initializer.toList.map .id)

/-- Lower a variable declaration. -/
def declareVariable (m : Module) (options : Options) (instId : InstId) (inst : Inst)
    (declaration : Variable) : Lower Unit := do
  let id ← resultId m inst
  let result ← resultOf inst
  let pointer := (← check (m.value result)).ty
  match pointer with
  | .pointer space store access => do
    if space = .undefined then
      fail (.varSpace space)
    let typeWord ← typeId m pointer
    match space with
    | .functionLocal => declareLocal m instId declaration id typeWord store
    | .input | .output => do
      if store.deepestElement = .f16 then
        require .storageInputOutput16
      declareGlobal id typeWord (← check (storageClass space)) none
      decorateInterface id declaration.attributes space
    | .privateLocal => do
      let initializer ← match declaration.initializer with
        | some (.constant constant) => constantId m constant
        | some other => fail (.privateInitializer instId other)
        | none => nullId m store
      declareGlobal id typeWord StorageClass.privateLocal (some initializer)
    | .pushConstant => declareGlobal id typeWord StorageClass.pushConstant none
    | .handle | .storage | .uniform => do
      declareGlobal id typeWord (← check (storageClass space)) none
      decorateResource instId declaration id store access
    | .workgroup => do
      let initializer ← if options.zeroInitWorkgroup then some <$> nullId m store else pure none
      declareGlobal id typeWord StorageClass.workgroup initializer
    | .undefined => pure ()
    if let some name := (← check (m.value result)).name then
      nameId id name
  | ty => fail (.varNotPointer instId ty)

end Shader.Lower
