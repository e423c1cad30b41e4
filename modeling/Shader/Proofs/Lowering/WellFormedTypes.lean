import Shader.Proofs.Lowering.Throughout

/-!
Well-formed types.

Vectors, matrices and textures are made of scalars, and so are atomics; a sampled image is made of a texture. If the
types that a module states are well formed, a lowering asks for no others: those that it takes from them, to reach a
component or to point to it, are well formed as well.
-/
namespace Shader

open Binary Array Ty

namespace Ty

/-- A texture, which can be sampled. -/
def isTexture : Ty → Bool
  | .sampledTexture .. | .multisampledTexture .. | .depthTexture _ | .depthMultisampledTexture _ | .storageTexture ..
  | .inputAttachment _ => true
  | _ => false

/-- Vectors, matrices, atomics and textures are of scalars, and sampled images of textures. -/
def isWellFormed : Ty → Bool
  | .vector elem _ | .matrix elem _ _ | .atomic elem | .sampledTexture _ elem | .multisampledTexture _ elem
  | .storageTexture _ _ _ elem | .inputAttachment elem => elem.isScalar
  | .array elem _ _ => elem.isWellFormed
  | .pointer _ store _ => store.isWellFormed
  | .sampledImage image => image.isTexture && image.isWellFormed
  | _ => true

variable {ty : Ty}

theorem isWellFormed_of_isScalar (scalar : ty.isScalar = true) : ty.isWellFormed = true := by
  cases ty <;> first | rfl | cases scalar

theorem isTexture_normal (texture : ty.isTexture = true) : ty.normal.isTexture = true := by
  cases ty <;> first | rfl | cases texture

theorem isWellFormed_normal (held : ty.isWellFormed = true) : ty.normal.isWellFormed = true := by
  induction ty with
  | atomic inner ih => exact ih (isWellFormed_of_isScalar held)
  | array elem _ _ ih | pointer _ elem _ ih => exact ih held
  | sampledImage image ih =>
    simp only [isWellFormed, normal, Bool.and_eq_true] at held ⊢
    exact ⟨isTexture_normal held.1, ih held.2⟩
  | depthTexture | depthMultisampledTexture | sampler => rfl
  | _ => exact held

theorem isWellFormed_scalar (value : Scalar) : value.ty.isWellFormed = true := by cases value <;> rfl

end Ty

namespace Module

/-- All types that the module states are well formed. -/
structure TypesWellFormed (m : Module) : Prop where
  values : ∀ value ∈ m.values, value.ty.isWellFormed = true
  constants : ∀ constant ∈ m.constants.items, constant.ty.isWellFormed = true
  members : ∀ struct ∈ m.structs, ∀ member ∈ struct.members, member.ty.isWellFormed = true
  returned : ∀ function ∈ m.functions, function.returnType.isWellFormed = true

instance (m : Module) : Decidable m.TypesWellFormed :=
  decidable_of_iff ((∀ value ∈ m.values, value.ty.isWellFormed = true) ∧
      (∀ constant ∈ m.constants.items, constant.ty.isWellFormed = true) ∧
      (∀ struct ∈ m.structs, ∀ member ∈ struct.members, member.ty.isWellFormed = true) ∧
      ∀ function ∈ m.functions, function.returnType.isWellFormed = true)
    ⟨fun ⟨values, constants, members, returned⟩ => ⟨values, constants, members, returned⟩,
      fun held => ⟨held.values, held.constants, held.members, held.returned⟩⟩

namespace TypesWellFormed

variable {m : Module} (held : m.TypesWellFormed)
include held

theorem value {id : ValueId} {found : ValueDef} (isFound : m.value id = .ok found) : found.ty.isWellFormed = true :=
  held.values _ (mem_of_getElem? (value_eq_ok.mp isFound))

theorem member {id : StructId} {definition : StructDef} (isFound : m.structDef id = .ok definition) {member : Member}
    (among : member ∈ definition.members) : member.ty.isWellFormed = true :=
  held.members _ (mem_of_getElem? (structDef_eq_ok.mp isFound)) _ among

theorem result {ref : FuncId} {function : Function} (isFound : m.function ref = .ok function) :
    function.returnType.isWellFormed = true :=
  held.returned _ (mem_of_getElem? (function_eq_ok.mp isFound))

/-- The parts that values of a type are indexed into have well-formed types. -/
theorem element {index : Word} {ty elem : Ty} (whole : ty.isWellFormed = true)
    (isElement : m.elementType index ty = .ok elem) : elem.isWellFormed = true := by
  cases ty with
  | vector inner width =>
    cases isElement
    exact isWellFormed_of_isScalar whole
  | array inner count stride =>
    cases isElement
    exact whole
  | matrix inner columns rows =>
    cases isElement
    exact whole
  | struct id =>
    obtain ⟨definition, isFound, found⟩ := bind_eq_ok.mp isElement
    split at found
    · cases found
      exact held.member isFound (List.mem_of_getElem? ‹_›)
    · cases found
  | _ => cases isElement

/-- The well-formed types are a choice that a lowering gets by with. -/
theorem grants : Lower.Grants m fun ty => ty.isWellFormed = true where
  void := rfl
  value := held.value
  returned := held.result
  store whole := whole
  element := held.element
  component := by
    intro space elem width access whole
    exact @isWellFormed_of_isScalar elem whole

end TypesWellFormed
end Module

namespace LowerState

/-- The types in the table and those of the constants are well formed. -/
structure Regular (s : LowerState) : Prop where
  types : ∀ entry ∈ s.types.entries, entry.1.isWellFormed = true
  pool : ∀ constant ∈ s.pool.items, constant.ty.isWellFormed = true

/-- Types stay well formed. -/
def StaysRegular (s t : LowerState) : Prop := s.Regular → t.Regular

end LowerState

namespace Lower

open LowerState

/-- The property of steps along which types stay well formed. -/
abbrev Regularly : Property := Respecting StaysRegular

instance sees_staysRegular : Sees StaysRegular fun s => (s.types, s.pool) where
  same views held := by
    obtain ⟨types, pool⟩ := Prod.mk.inj views
    exact ⟨types ▸ held.types, pool ▸ held.pool⟩
  trans first second := second ∘ first

theorem regularly_declareType {ty : Ty} {declaration : Word → Lower Unit} (whole : ty.isWellFormed = true)
    (made : Has Regularly (do
      let id ← fresh
      declaration id
      return id : Lower Word)) : Has Regularly (declareType ty declaration) := by
  refine Respects.remember_of (fun _ => id) sees_staysRegular.trans (fun s id held => ?_) made
  exact ⟨List.forall_mem_cons.mpr ⟨whole, held.types⟩, held.pool⟩

theorem regularly_intern {constant : Constant} (whole : constant.ty.isWellFormed = true) :
    Has Regularly (intern constant) := by
  refine ⟨fun s id t ran held => ?_⟩
  cases ran
  refine ⟨held.types, fun other (stored : other ∈ (s.pool.insert constant).2.items) => ?_⟩
  by_cases known : constant.canonical ∈ s.pool.items
  · rw [Pool.insert_of_mem known] at stored
    exact held.pool other stored
  · rw [Pool.insert_of_not_mem known] at stored
    rcases mem_push.mp stored with before | rfl
    · exact held.pool other before
    · rwa [Constant.canonical_ty]

instance : Basic Regularly where
  __ := (Sees.composes : Composes Regularly)
  fresh := .of_view fun s id t ran => by
    obtain ⟨-, rfl, -⟩ := fresh_run ran
    rfl
  scalar value := regularly_intern (isWellFormed_scalar value)
  require capability := .modify_unseen fun _ => rfl

theorem regularly_add {part : Assembly.Section} {op : Opcode} {operands : List Operand} :
    Has Regularly (add part op operands) :=
  .of_view fun s u t ran => by
    obtain ⟨inst, -, rfl⟩ := add_run ran
    rfl

instance holdsOverDeclarations_regularly : HoldsOverDeclarations Regularly where
  declares _ _ _ := regularly_add
  annotate _ _ _ := regularly_add
  constants _ := .remember_unseen

instance : HoldsOverNames Regularly := ⟨fun _ _ _ => regularly_add⟩

instance : Has Regularly wordTypeId := regularly_declareType rfl inferInstance

instance : Has Regularly floatTypeId := regularly_declareType rfl inferInstance

instance regularly_wordConstantId {word : Word} : Has Regularly (wordConstantId word) :=
  .next fun _ => .remember_unseen

theorem regularly_typeIdWith {structType : StructId → Lower Word} {ty : Ty}
    [∀ struct, Has Regularly (structType struct)]
    (whole : ty.isWellFormed = true) : Has Regularly (typeIdWith structType ty) := by
  induction ty with
  | struct | u32 | f32 =>
    unfold typeIdWith
    infer_instance
  | atomic inner ih => exact ih (isWellFormed_of_isScalar whole)
  | vector elem width ih | sampledTexture _ elem ih | multisampledTexture _ elem ih | storageTexture _ _ _ elem ih
  | inputAttachment elem ih =>
    have part := ih (isWellFormed_of_isScalar whole)
    exact regularly_declareType whole inferInstance
  | matrix elem columns rows ih =>
    have part := ih (isWellFormed_of_isScalar whole)
    have column : Has Regularly (declareType (.vector elem rows) fun id => do
        let elemId ← typeIdWith structType elem
        declare .typeVector [.id id, .id elemId, .literal rows]) := regularly_declareType whole inferInstance
    exact regularly_declareType whole inferInstance
  | array elem count stride ih =>
    have part := ih whole
    refine regularly_declareType (@isWellFormed_normal (.array elem count stride) whole) ?_
    cases count <;> infer_instance
  | pointer space store access ih =>
    have part := ih whole
    exact regularly_declareType (@isWellFormed_normal (.pointer space store access) whole) inferInstance
  | sampledImage image ih =>
    have part := ih (by simp_all [isWellFormed])
    exact regularly_declareType (isWellFormed_normal whole) inferInstance
  | _ => exact regularly_declareType rfl inferInstance

section
variable {m : Module} {options : Options} (held : m.TypesWellFormed)
include held

theorem regularly_structTypeWithin {depth : Nat} {struct : StructId} :
    Has Regularly (structTypeWithin m depth struct) := by
  induction depth generalizing struct with
  | zero => exact Respects.fail
  | succ depth ih =>
    refine regularly_declareType rfl (.next fun id => ?_)
    have declared : Has Regularly (declareStruct m (typeIdWith (structTypeWithin m depth)) struct id) :=
      has_declareStruct_of fun isFound member among => regularly_typeIdWith (held.member isFound among)
    infer_instance

theorem regularly_typeId {ty : Ty} (whole : ty.isWellFormed = true) : Has Regularly (typeId m ty) :=
  @regularly_typeIdWith _ _ (fun _ => regularly_structTypeWithin held) whole

theorem regularly_nullId {ty : Ty} (whole : ty.isWellFormed = true) : Has Regularly (nullId m ty) := by
  have typed := regularly_typeId held (isWellFormed_normal whole)
  have declared (operands : List Operand) : Has Regularly (declare .constantNull operands) := regularly_add
  refine @Has.remember_unseen _ _ _ _ _ _ _ _ _ ?_ fun _ _ => rfl
  exact .of_ite (fun _ => .fail_bind rfl) fun _ => inferInstance

theorem regularly_undefId {ty : Ty} (whole : ty.isWellFormed = true) : Has Regularly (undefId m ty) := by
  have typed := regularly_typeId held (isWellFormed_normal whole)
  have declared (operands : List Operand) : Has Regularly (declare .undef operands) := regularly_add
  exact .remember_unseen

omit held in
/-- What is read of the constants can be relied on while they are well formed. -/
theorem regularly_askPool_next {α β : Type} {read : Pool → Except Fault α} {next : α → Lower β}
    {fits : α → Prop} (known : ∀ s : LowerState, s.Regular → ∀ a, read s.pool = .ok a → fits a)
    (each : ∀ a, fits a → Has Regularly (next a)) : Has Regularly (askPool read >>= next) := by
  refine ⟨fun s b t ran regular => ?_⟩
  obtain ⟨a, middle, asked, rest⟩ := run_bind_eq_ok.mp ran
  obtain ⟨found, rfl⟩ := askPool_run asked
  exact (each a (known _ regular a found)).has _ b t rest regular

theorem regularly_constantId {constant : ConstId} : Has Regularly (constantId m constant) :=
  @has_constantId_among _ _ _ (fun ty => ty.isWellFormed = true) { holdsOverDeclarations_regularly with
      typeId := fun _ => regularly_typeId held
      nullId := fun _ => regularly_nullId held
      typeOf := regularly_askPool_next fun s regular ty typed => by
        obtain ⟨stored, isStored, rfl⟩ := Pool.typeOf_eq_ok.mp typed
        exact regular.pool _ (mem_of_getElem? (Pool.get_eq_ok.mp isStored)) } _

omit held in
theorem regularly_valueId_ssa (value : ValueId) : Has Regularly (valueId m (.ssa value)) :=
  .remember_unseen

theorem holdsOverValues_regularly : HoldsOverValues m (fun ty => ty.isWellFormed = true) Regularly where
  toGrants := held.grants
  emit _ _ _ := .of_view fun s u t ran => by
    obtain ⟨code, inst, -, -, rfl⟩ := emit_run ran
    rfl
  emitLocal _ := .of_view fun s u t ran => by
    obtain ⟨code, inst, -, -, rfl⟩ := emitLocal_run ran
    rfl
  requireExtension _ := .modify_unseen fun _ => rfl
  labelId _ := .remember_unseen
  mergeId _ := .remember_unseen
  functionId _ := .remember_unseen
  extendedSetId := by
    have imports (operands : List Operand) : Has Regularly (add .imports .extInstImport operands) := regularly_add
    exact .remember_unseen
  wordConstantId _ := regularly_wordConstantId
  typeId _ := regularly_typeId held
  nullId _ := regularly_nullId held
  undefId _ := regularly_undefId held
  splats ty _ _ count whole := has_internSplats fun element => @regularly_intern (.splat ty element count) whole
  typeOf := by
    intro α value next each
    refine regularly_askPool_next (fun s regular ty typed => ?_) each
    cases value with
    | constant id =>
      obtain ⟨stored, isStored, rfl⟩ := Pool.typeOf_eq_ok.mp typed
      exact regular.pool _ (mem_of_getElem? (Pool.get_eq_ok.mp isStored))
    | ssa id =>
      obtain ⟨found, isFound, same⟩ := bind_eq_ok.mp typed
      cases same
      exact held.value isFound
    | literal word =>
      cases typed
      rfl
  constantId _ := regularly_constantId held
  definedId := regularly_valueId_ssa
  enterValue _ _ := .modify_unseen fun _ => rfl
  nameResults _ := has_nameResults regularly_valueId_ssa

omit held in
instance : HoldsOverFunctions Regularly where
  executionMode _ := regularly_add
  entryPoint _ := regularly_add
  signatureId _ := by
    have declared (operands : List Operand) : Has Regularly (declare .typeFunction operands) := regularly_add
    exact .remember_unseen
  start _ := .modify_unseen fun _ => rfl
  finish := .modify_unseen fun _ => rfl

/-- After a lowering the types in the table are well formed. -/
theorem regular_of_run {state : LowerState} (ran : Ran m options state) : state.Regular := by
  have covers := holdsOverValues_regularly held
  have declaring : DeclaringVariables m options Regularly :=
    ⟨fun _ _ _ => has_declareVariable fun _ _ _ _ => regularly_add⟩
  exact (respects_run ran : StaysRegular _ _) ⟨by simp [prepared], held.constants⟩

end

end Lower
end Shader
