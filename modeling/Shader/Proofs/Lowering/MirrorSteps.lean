import Shader.Proofs.Lowering.Mirror

/-!
Ids, instructions and variables of a renumbered module.

Each step of a lowering that is about one type, one constant, one value or one instruction without blocks does the
same to a module and to the renumbered module.
-/
namespace Shader.Lower

open Binary Renumbering Option Selection

variable {ρ : Renumbering}
variable {ty : Ty} {declaration : Variable} {id typeWord : Word} {index : Value}
variable {use : ImageUse} {target : Value}

theorem mirrors_declareType {declaration other : Word → Lower Unit}
    (declares : ∀ id, Mirrors ρ Eq (declaration id) (other id)) :
    Mirrors ρ Eq (declareType ty declaration) (declareType (ρ.ty ty) other) := by
  refine .remember (unmarked_types ρ) ?_
  infer_instance

instance mirrors_wordTypeId : Mirrors ρ Eq wordTypeId wordTypeId :=
  @mirrors_declareType ρ .u32 _ _ fun _ => inferInstance

instance mirrors_floatTypeId : Mirrors ρ Eq floatTypeId floatTypeId :=
  @mirrors_declareType ρ .f32 _ _ fun _ => inferInstance

instance {value : Word} : Mirrors ρ Eq (wordConstantId value) (wordConstantId value) := by
  refine (@mirrors_intern ρ (.scalar (.u32 value))).onto fun constant => ?_
  exact .remember (unmarked_constants ρ) inferInstance

instance : Mirrors ρ Eq use.format use.format := by
  cases use with
  | storage format =>
    unfold ImageUse.format
    infer_instance
  | sampled | multisampled | attachment => exact Mirrors.pure

instance {dim : TextureDim} {sampled : Word} :
    Mirrors ρ Eq (declareImage use dim sampled id) (declareImage use dim sampled id) := by
  unfold declareImage
  cases use.dimCapability? dim <;> infer_instance

theorem nestedMatrix?_ty : nestedMatrix? (ρ.ty ty) = (nestedMatrix? ty).map fun found => (ρ.ty found.1, found.2) := by
  induction ty with
  | array elem count stride ih => exact ih
  | _ => rfl

instance {index : Nat} {member : Member} :
    Mirrors ρ Eq (decorateMember id index member) (decorateMember id index (ρ.member member)) := by
  unfold decorateMember
  simp only [Renumbering.member, nestedMatrix?_ty]
  cases nestedMatrix? member.ty with
  | none =>
    simp only [map_none]
    cases member.name <;> infer_instance
  | some found =>
    obtain ⟨elem, rows⟩ := found
    simp only [map_some, ty_byteSize?]
    cases elem.byteSize? with
    | none => exact Mirrors.add.next fun _ _ _ => .fail_bind
    | some size => cases member.name <;> infer_instance

section
variable {m other : Module} [alike : Renumbered ρ m other]

theorem mirrors_declareStruct {typeId typeId' : Ty → Lower Word} {struct : StructId} {word : Word}
    (types : ∀ ty, Mirrors ρ Eq (typeId ty) (typeId' (ρ.ty ty))) :
    Mirrors ρ Eq (declareStruct m typeId struct word) (declareStruct other typeId' (ρ.struct struct) word) := by
  refine (Mirrors.check (alike.structDef struct)).onto fun definition => ?_
  obtain ⟨name, members, block⟩ := definition
  simp only [structDef, List.zipIdx_map]
  have ids (entry : Member × Nat) : Mirrors ρ Eq (do
      let memberType ← typeId entry.1.ty
      decorateMember word entry.2 entry.1
      return memberType) (do
      let memberType ← typeId' (ρ.ty entry.1.ty)
      decorateMember word entry.2 (ρ.member entry.1)
      return memberType) := inferInstance
  refine (@Mirrors.mapMSame ρ _ _ _ (Prod.map ρ.member id) _ _ _ ids).same fun members => ?_
  cases name <;> exact Mirrors.declare.next fun _ _ _ => .branch

end

theorem mirrors_typeIdWith {structType structType' : StructId → Lower Word}
    (structs : ∀ struct, Mirrors ρ Eq (structType struct) (structType' (ρ.struct struct))) (ty : Ty) :
    Mirrors ρ Eq (typeIdWith structType ty) (typeIdWith structType' (ρ.ty ty)) := by
  induction ty with
  | void => exact @mirrors_declareType ρ .void _ _ fun _ => inferInstance
  | bool => exact @mirrors_declareType ρ .bool _ _ fun _ => inferInstance
  | i32 => exact @mirrors_declareType ρ .i32 _ _ fun _ => inferInstance
  | u32 => exact mirrors_wordTypeId
  | f32 => exact mirrors_floatTypeId
  | f16 => exact @mirrors_declareType ρ .f16 _ _ fun _ => inferInstance
  | vector elem width ih => exact @mirrors_declareType ρ (.vector elem width) _ _ fun _ => inferInstance
  | matrix elem columns rows ih =>
    have column := @mirrors_declareType ρ (.vector elem rows) _ _ fun id =>
      (inferInstance : Mirrors ρ Eq (do declare .typeVector [.id id, .id (← typeIdWith structType elem), .literal rows])
        (do declare .typeVector [.id id, .id (← typeIdWith structType' (ρ.ty elem)), .literal rows]))
    exact @mirrors_declareType ρ (.matrix elem columns rows) _ _ fun _ =>
      column.next fun _ _ same => same ▸ inferInstance
  | array elem count stride ih =>
    simp only [typeIdWith, ty, ty_normal]
    refine @mirrors_declareType ρ (.array elem.normal count stride) _ _ fun _ => ?_
    cases count <;> infer_instance
  | atomic inner ih => exact ih
  | pointer space store access ih =>
    simp only [typeIdWith, ty, ty_normal]
    exact @mirrors_declareType ρ (.pointer space store.normal access) _ _ fun _ => inferInstance
  | struct struct => exact structs struct
  | sampler => exact @mirrors_declareType ρ (.sampler .sampler) _ _ fun _ => inferInstance
  | sampledTexture dim sampled ih =>
    exact @mirrors_declareType ρ (.sampledTexture dim sampled) _ _ fun _ => inferInstance
  | multisampledTexture dim sampled ih =>
    exact @mirrors_declareType ρ (.multisampledTexture dim sampled) _ _ fun _ => inferInstance
  | depthTexture dim => exact @mirrors_declareType ρ (.sampledTexture dim .f32) _ _ fun _ => inferInstance
  | depthMultisampledTexture dim =>
    exact @mirrors_declareType ρ (.multisampledTexture dim .f32) _ _ fun _ => inferInstance
  | storageTexture dim format access sampled ih =>
    exact @mirrors_declareType ρ (.storageTexture dim format .read sampled) _ _ fun _ => inferInstance
  | inputAttachment sampled ih => exact @mirrors_declareType ρ (.inputAttachment sampled) _ _ fun _ => inferInstance
  | sampledImage image ih =>
    simp only [typeIdWith, ty, ty_normal]
    exact @mirrors_declareType ρ (.sampledImage image.normal) _ _ fun _ => inferInstance

section
variable {m other : Module} [alike : Renumbered ρ m other]
variable {elementId elementId' : ConstId → Lower Word}

theorem mirrors_structTypeWithin (depth : Nat) (struct : StructId) :
    Mirrors ρ Eq (structTypeWithin m depth struct) (structTypeWithin other depth (ρ.struct struct)) := by
  induction depth generalizing struct with
  | zero => exact .fail
  | succ depth ih =>
    exact @mirrors_declareType ρ (.struct struct) _ _ fun id => mirrors_declareStruct (mirrors_typeIdWith ih)

instance mirrors_typeId : Mirrors ρ Eq (typeId m ty) (typeId other (ρ.ty ty)) := by
  unfold typeId
  rw [alike.structs.size]
  exact mirrors_typeIdWith (mirrors_structTypeWithin _) ty

instance mirrors_nullId : Mirrors ρ Eq (nullId m ty) (nullId other (ρ.ty ty)) := by
  unfold nullId
  simp only [ty_normal, ty_pointee?, isSome_map]
  refine .remember (unmarked_nulls ρ) ?_
  split <;> infer_instance

instance : Mirrors ρ Eq (undefId m ty) (undefId other (ρ.ty ty)) := by
  unfold undefId
  simp only [ty_normal]
  exact .remember (unmarked_undefs ρ) inferInstance

theorem follows_componentCount (constant : ConstId) (ty : Ty) :
    Follows Eq (componentCount m constant ty) (componentCount other (ρ.constant constant) (ρ.ty ty)) := by
  cases ty with
  | vector | matrix => exact .pure rfl
  | array elem count stride =>
    cases count with
    | constant count => exact .pure rfl
    | runtime => exact .error
  | struct struct =>
    refine (alike.structDef struct).bind fun definition _ same => .pure ?_
    rw [same, structDef, List.length_map]
  | _ => exact .error

omit alike in
instance {value : Scalar} :
    Mirrors ρ Eq (declareScalar typeWord id value) (declareScalar typeWord id value) := by
  rcases value with (_ | _) | value | value | bits | bits <;> exact Mirrors.declare

omit alike in
theorem mirrors_elementIds (constant : ConstId)
    (elements : ∀ element, Mirrors ρ Eq (elementId element) (elementId' (ρ.constant element))) (index : Nat)
    (found : List Word) (count : Nat) :
    Mirrors ρ Eq (elementIds elementId constant index found count)
      (elementIds elementId' (ρ.constant constant) index found count) := by
  induction count generalizing index found with
  | zero => exact Mirrors.pure
  | succ count ih =>
    refine (Mirrors.askPool fun same => same.element constant index).onto fun element => ?_
    infer_instance

theorem mirrors_declareConstant (constant : ConstId) (ty : Ty)
    (elements : ∀ element, Mirrors ρ Eq (elementId element) (elementId' (ρ.constant element))) :
    Mirrors ρ Eq (declareConstant m elementId constant ty)
      (declareConstant other elementId' (ρ.constant constant) (ρ.ty ty)) := by
  refine mirrors_typeId.same fun typeWord => ?_
  refine Mirrors.fresh.same fun id => ?_
  refine (Mirrors.askPool fun same => same.get constant).onto fun stored => ?_
  have ids := mirrors_elementIds constant elements 0 []
  have count : Mirrors ρ Eq (check (componentCount m constant ty)) _ := .check (follows_componentCount constant ty)
  cases stored <;> (simp only [stored]; infer_instance)

theorem mirrors_constantIdWithin (depth : Nat) (constant : ConstId) :
    Mirrors ρ Eq (constantIdWithin m depth constant) (constantIdWithin other depth (ρ.constant constant)) := by
  induction depth generalizing constant with
  | zero => exact .fail
  | succ depth ih =>
    refine .remember (unmarked_constants ρ) ?_
    refine (Mirrors.askPool fun same => same.typeOf constant).onto fun ty => ?_
    have declared : Mirrors ρ Eq (declareConstant m _ constant ty) _ := mirrors_declareConstant constant ty ih
    have zero : Mirrors ρ Eq (askPool (·.allZero constant)) _ := .askPool fun same => same.allZero constant
    simp only [ty_isScalar]
    infer_instance

instance mirrors_constantId {constant : ConstId} :
    Mirrors ρ Eq (constantId m constant) (constantId other (ρ.constant constant)) := by
  refine ⟨fun {s t a u} mirrored ran => ?_⟩
  have within : Mirrors ρ Eq (constantIdWithin m (s.pool.size + 1) constant) _ := mirrors_constantIdWithin _ constant
  simp only [constantId, StateT.run_bind, StateT.run_get, pure_bind, mirrored.pool.size] at ran ⊢
  exact within.run mirrored ran

end

section
variable {m other : Module} [alike : Renumbered ρ m other] {inst : Inst} {value : Value} {values : List Value}

instance mirrors_valueId : Mirrors ρ Eq (valueId m value) (valueId other (ρ.operand value)) := by
  cases value with
  | constant id => exact mirrors_constantId
  | literal word => exact Mirrors.pure
  | ssa id => exact .remember (unmarked_values ρ) .fresh

instance mirrors_valueId_ssa {id : ValueId} : Mirrors ρ Eq (valueId m (.ssa id)) (valueId other (.ssa (ρ.value id))) :=
  mirrors_valueId

theorem mirrors_value (id : ValueId) :
    Mirrors ρ (fun a b => b = ρ.valueDef a) (check (m.value id)) (check (other.value (ρ.value id))) :=
  .check (alike.value id)

theorem mirrors_typeOf (value : Value) :
    Mirrors ρ (fun a b => b = ρ.ty a) (typeOf m value) (typeOf other (ρ.operand value)) := by
  refine .askPool fun same => ?_
  cases value with
  | constant id => exact same.typeOf id
  | ssa id =>
    refine (alike.value id).bind fun a b found => .pure ?_
    rw [found, valueDef]
  | literal word => exact .pure rfl

omit alike in
theorem mirrors_resultOf (inst : Inst) :
    Mirrors ρ (fun a b => b = ρ.value a) (resultOf inst) (resultOf (ρ.instDef inst)) := by
  simp only [resultOf, Inst.result?, instDef, List.head?_map]
  cases inst.results.head? with
  | none => exact .fail
  | some result => exact .returning rfl

theorem mirrors_resultType (inst : Inst) :
    Mirrors ρ (fun a b => b = ρ.ty a) (resultType m inst) (resultType other (ρ.instDef inst)) := by
  refine (mirrors_resultOf inst).onto fun result => ?_
  refine (mirrors_value result).next fun found _ same => .returning ?_
  rw [same, valueDef]

instance : Mirrors ρ Eq (resultTypeId m inst) (resultTypeId other (ρ.instDef inst)) := by
  refine (mirrors_resultType inst).onto fun ty => ?_
  exact mirrors_typeId

instance mirrors_resultId : Mirrors ρ Eq (resultId m inst) (resultId other (ρ.instDef inst)) := by
  refine (mirrors_resultOf inst).onto fun result => ?_
  exact mirrors_valueId_ssa

instance mirrors_aliasTo {result : ValueId} :
    Mirrors ρ Eq (aliasTo m result value) (aliasTo other (ρ.value result) (ρ.operand value)) := by
  refine mirrors_valueId.same fun source => ?_
  refine .reading fun s t mirrored => ?_
  rw [mirrored.values, Table.find?_rename value_injective]
  cases s.values.find? result with
  | none => exact .enter (unmarked_values ρ)
  | some existing =>
    refine (mirrors_value result).onto fun found => ?_
    exact mirrors_typeId.next fun _ _ same => same ▸ .emit

theorem mirrors_nameResults {renumbered : Inst} (same : renumbered.results = inst.results.map ρ.value) :
    Mirrors ρ Eq (nameResults m inst) (nameResults other renumbered) := by
  have names (result : ValueId) : Follows Eq (m.nameOf result) (other.nameOf (ρ.value result)) :=
    (alike.value result).bind fun found _ same => .pure (by rw [same, valueDef])
  unfold nameResults
  rw [same]
  refine .forM fun result _ => (Mirrors.check (names result)).same fun name => ?_
  cases name <;> (dsimp only; infer_instance)

instance mirrors_passThrough :
    Mirrors ρ Eq (passThrough m inst value) (passThrough other (ρ.instDef inst) (ρ.operand value)) := by
  refine (mirrors_resultOf inst).onto fun result => ?_
  exact mirrors_aliasTo

instance : Mirrors ρ Eq (operandIds m values) (operandIds other (values.map ρ.operand)) := by
  unfold operandIds
  infer_instance

omit alike in
instance mirrors_knownIndex? : Mirrors ρ Eq (knownIndex? value) (knownIndex? (ρ.operand value)) := by
  cases value with
  | constant id => exact .askPool fun same => same.word? id
  | ssa | literal => exact .pure

theorem follows_elementType (index : Word) (ty : Ty) :
    Follows (fun a b => b = ρ.ty a) (m.elementType index ty) (other.elementType index (ρ.ty ty)) := by
  cases ty with
  | vector | array | matrix => exact .pure rfl
  | struct id =>
    refine (alike.structDef id).bind fun definition _ same => ?_
    subst same
    simp only [structDef, List.getElem?_map]
    cases definition.members[index.toNat]? with
    | none => exact .error
    | some member => exact .pure rfl
  | _ => exact .error

instance mirrors_extract {source : Word} {path : List Word} : Mirrors ρ Eq (extract m typeWord id source ty path values)
      (extract other typeWord id source (ρ.ty ty) path (values.map ρ.operand)) := by
  induction values generalizing ty path with
  | nil => exact Mirrors.emit
  | cons index indices ih =>
    refine mirrors_knownIndex?.same fun known => ?_
    cases known with
    | some word =>
      refine (Mirrors.check (follows_elementType word ty)).onto fun elem => ?_
      exact ih
    | none =>
      cases ty with
      | vector elem width =>
        have vector : Mirrors ρ Eq (typeId m (.vector elem width)) (typeId other (.vector (ρ.ty elem) width)) :=
          mirrors_typeId
        dsimp only [ty]
        infer_instance
      | _ => exact .fail

instance mirrors_emitAccess : Mirrors ρ Eq (emitAccess m inst value values)
      (emitAccess other (ρ.instDef inst) (ρ.operand value) (values.map ρ.operand)) := by
  refine (mirrors_resultType inst).onto fun ty => ?_
  have extracted {typeWord id source : Word} : Mirrors ρ Eq
      (do extract m typeWord id source (← typeOf m value) [] values) (do
      extract other typeWord id source (← typeOf other (ρ.operand value)) [] (values.map ρ.operand)) := by
    refine (mirrors_typeOf value).onto fun ty => ?_
    exact mirrors_extract
  simp only [ty_pointee?, isSome_map]
  infer_instance

end

section
variable {m other : Module} [alike : Renumbered ρ m other] {inst : Inst} {value : Value} {values : List Value}

omit alike in
theorem binary?_ty (op : BinaryOp) (ty lhs : Ty) :
    binary? op (ρ.ty ty) (ρ.ty lhs) = binary? op ty lhs := by
  cases op <;> simp [binary?, byNumber, byOperand]

omit alike in
theorem follows_binary (op : BinaryOp) (ty lhs : Ty) :
    Follows Eq (binary op ty lhs) (binary op (ρ.ty ty) (ρ.ty lhs)) := by
  unfold binary
  rw [binary?_ty]
  cases op
  case logicalAnd | logicalOr => exact .error
  all_goals
    dsimp only
    split
    · exact .pure rfl
    · exact .error

omit alike in
theorem follows_unary (op : UnaryOp) (ty : Ty) : Follows Eq (unary op ty) (unary op (ρ.ty ty)) := by
  cases op with
  | complement | not => exact .pure rfl
  | negation =>
    simp only [unary, ty_isFloat, ty_isSigned]
    split
    · exact .pure rfl
    · split
      · exact .pure rfl
      · exact .error

instance mirrors_emitBinary {op : BinaryOp} {rhs : Value} : Mirrors ρ Eq (emitBinary m inst op value rhs)
    (emitBinary other (ρ.instDef inst) op (ρ.operand value) (ρ.operand rhs)) := by
  refine (mirrors_resultType inst).onto fun ty => ?_
  refine (mirrors_typeOf value).onto fun lhs => ?_
  refine (Mirrors.check (follows_binary op ty lhs)).same fun opcode => ?_
  infer_instance

instance mirrors_emitUnary {op : UnaryOp} :
    Mirrors ρ Eq (emitUnary m inst op value) (emitUnary other (ρ.instDef inst) op (ρ.operand value)) := by
  refine (mirrors_resultType inst).onto fun ty => ?_
  refine (Mirrors.check (follows_unary op ty)).same fun opcode => ?_
  infer_instance

instance mirrors_emitBitcast :
    Mirrors ρ Eq (emitBitcast m inst value) (emitBitcast other (ρ.instDef inst) (ρ.operand value)) := by
  refine (mirrors_resultType inst).onto fun ty => ?_
  refine (mirrors_typeOf value).onto fun source => ?_
  simp only [ty_injective.eq_iff]
  infer_instance

omit alike in
theorem follows_conversion (source target : Ty) :
    Follows Eq (conversion source target) (conversion (ρ.ty source) (ρ.ty target)) := by
  simp only [conversion, ty_isSigned, ty_isUnsigned, ty_isFloat, ty_isInteger, ty_isBool, ty_byteSize?,
    ty_deepestElement]
  repeat' first | exact .pure rfl | exact .error | refine .branch ?_ ?_
  cases target.deepestElement <;> first | exact .pure rfl | exact .error

instance mirrors_emitConvert :
    Mirrors ρ Eq (emitConvert m inst value) (emitConvert other (ρ.instDef inst) (ρ.operand value)) := by
  refine (mirrors_resultType inst).onto fun target => ?_
  refine (mirrors_typeOf value).onto fun source => ?_
  refine mirrors_typeId.same fun typeWord => ?_
  refine mirrors_resultId.same fun id => ?_
  refine mirrors_valueId.same fun operand => ?_
  refine (Mirrors.check (follows_conversion source target)).same fun conversion => ?_
  cases conversion with
  | direct op => exact .emit
  | fromNull op => exact mirrors_nullId.next fun _ _ same => same ▸ .emit
  | choose one zero =>
    refine (@mirrors_intern ρ (.scalar one)).onto fun oneScalar => ?_
    refine (@mirrors_intern ρ (.scalar zero)).onto fun zeroScalar => ?_
    cases target with
    | vector elem width =>
      refine (@mirrors_intern ρ (.splat (.vector elem width) oneScalar width)).onto fun one => ?_
      refine (@mirrors_intern ρ (.splat (.vector elem width) zeroScalar width)).onto fun zero => ?_
      simp only [pure_bind]
      infer_instance
    | _ =>
      simp only [pure_bind, Renumbering.ty]
      infer_instance

instance mirrors_emitConstruct : Mirrors ρ Eq (emitConstruct m inst values)
    (emitConstruct other (ρ.instDef inst) (values.map ρ.operand)) := by
  refine (mirrors_resultType inst).onto fun ty => ?_
  have whole : Mirrors ρ Eq (do
      emit .compositeConstruct ([.id (← typeId m ty), .id (← resultId m inst)] ++ (← operandIds m values))) (do
      emit .compositeConstruct ([.id (← typeId other (ρ.ty ty)), .id (← resultId other (ρ.instDef inst))] ++
        (← operandIds other (values.map ρ.operand)))) := inferInstance
  rcases values with _ | ⟨arg, _ | ⟨second, rest⟩⟩
  · exact whole
  · refine (mirrors_typeOf arg).onto fun source => ?_
    by_cases same : source = ty
    · simp only [same, if_true, pure_bind]
      exact mirrors_passThrough
    · simp only [ty_injective.eq_iff, same, if_false, pure_bind]
      exact whole
  · exact whole

instance mirrors_emitSwizzle {indices : List UInt32} : Mirrors ρ Eq (emitSwizzle m inst value indices)
    (emitSwizzle other (ρ.instDef inst) (ρ.operand value) indices) := by
  unfold emitSwizzle
  infer_instance

instance mirrors_emitLoad :
    Mirrors ρ Eq (emitLoad m inst value) (emitLoad other (ρ.instDef inst) (ρ.operand value)) := by
  unfold emitLoad
  infer_instance

instance mirrors_emitStore :
    Mirrors ρ Eq (emitStore m target value) (emitStore other (ρ.operand target) (ρ.operand value)) := by
  unfold emitStore
  infer_instance

instance :
    Mirrors ρ Eq (elementPointer m value index) (elementPointer other (ρ.operand value) (ρ.operand index)) := by
  refine (mirrors_typeOf value).onto fun ty => ?_
  cases ty with
  | pointer space store access =>
    cases store with
    | vector elem width =>
      have pointer : Mirrors ρ Eq (typeId m (.pointer space elem access))
          (typeId other (.pointer space (ρ.ty elem) access)) := mirrors_typeId
      dsimp only [Renumbering.ty]
      infer_instance
    | _ => exact .fail
  | _ => exact .fail

instance mirrors_emitLoadElement : Mirrors ρ Eq (emitLoadElement m inst value index)
    (emitLoadElement other (ρ.instDef inst) (ρ.operand value) (ρ.operand index)) := by
  unfold emitLoadElement
  infer_instance

instance mirrors_emitStoreElement : Mirrors ρ Eq (emitStoreElement m target index value)
    (emitStoreElement other (ρ.operand target) (ρ.operand index) (ρ.operand value)) := by
  unfold emitStoreElement
  infer_instance

end

section
variable {m other : Module} [alike : Renumbered ρ m other] {inst : Inst} {values : List Value} {fn : BuiltinFn}

instance : Mirrors ρ Eq extendedSetId extendedSetId :=
  .remember (unmarked_imports ρ) inferInstance

omit alike in
theorem result?_instDef (inst : Inst) : (ρ.instDef inst).result? = inst.result?.map ρ.value := List.head?_map

instance : Mirrors ρ Eq (resultOperands m inst) (resultOperands other (ρ.instDef inst)) := by
  unfold resultOperands
  rw [result?_instDef]
  cases inst.result? with
  | none => exact .pure
  | some result =>
    refine (mirrors_value result).onto fun found => ?_
    exact mirrors_typeId.next fun _ _ same => same ▸ inferInstance

instance :
    Mirrors ρ Eq (builtinOperands m fn values) (builtinOperands other fn (values.map ρ.operand)) := by
  have scope : Mirrors ρ Eq subgroupScope subgroupScope := by
    unfold subgroupScope
    infer_instance
  cases fn
  case subgroupBallot =>
    refine scope.same fun scope => ?_
    rw [List.isEmpty_map]
    split
    · refine (@mirrors_intern ρ (.scalar (.bool true))).onto fun always => ?_
      infer_instance
    · exact .pure
  case subgroupBroadcast => exact .bind
  all_goals exact .pure

instance mirrors_emitForm {form : Form} :
    Mirrors ρ Eq (emitForm m inst fn values form) (emitForm other (ρ.instDef inst) fn (values.map ρ.operand) form) := by
  cases form with
  | barrier memory =>
    unfold emitForm emitBarrier
    infer_instance
  | instruction op | extended code =>
    unfold emitForm
    infer_instance

omit alike in
theorem builtin?_ty (fn : BuiltinFn) (ty : Ty) : builtin? fn (ρ.ty ty) = builtin? fn ty := by
  cases fn <;> simp [builtin?, byResult, bySignedResult]

omit alike in
theorem isIdentity_ty (fn : BuiltinFn) (ty arg : Ty) :
    isIdentity fn (ρ.ty ty) (ρ.ty arg) = isIdentity fn ty arg := by
  cases fn <;> simp [isIdentity]

theorem mirrors_identityArgument? (ty : Ty) :
    Mirrors ρ (fun a b => b = a.map (Prod.map ρ.value ρ.operand)) (identityArgument? m inst fn ty values)
      (identityArgument? other (ρ.instDef inst) fn (ρ.ty ty) (values.map ρ.operand)) := by
  cases values with
  | nil => exact .returning rfl
  | cons arg rest =>
    refine (mirrors_typeOf arg).onto fun source => ?_
    rw [result?_instDef, isIdentity_ty]
    cases inst.result? with
    | none => exact .returning rfl
    | some result => exact .returning (by split <;> rfl)

instance mirrors_emitBuiltin :
    Mirrors ρ Eq (emitBuiltin m inst fn values) (emitBuiltin other (ρ.instDef inst) fn (values.map ρ.operand)) := by
  unfold emitBuiltin
  rw [result?_instDef]
  extract_lets rest others
  have called (ty : Ty) : Mirrors ρ Eq (rest ty) (others (ρ.ty ty)) := by
    refine (mirrors_identityArgument? ty).onto fun found => ?_
    cases found with
    | some found => exact mirrors_aliasTo
    | none =>
      simp only [map_none, builtin?_ty]
      cases builtin? fn ty with
      | none => exact .fail
      | some form =>
        cases builtinCapability? fn with
        | none => exact mirrors_emitForm
        | some capability => exact .bind
  clear_value rest others
  cases inst.result? with
  | none => exact called .void
  | some result =>
    refine (mirrors_value result).onto fun found => ?_
    exact called found.ty

instance mirrors_emitTargetCall {fn : TargetFn} : Mirrors ρ Eq (emitTargetCall m inst fn values)
      (emitTargetCall other (ρ.instDef inst) fn (values.map ρ.operand)) := by
  unfold emitTargetCall
  cases target? fn with
  | none => exact .fail
  | some op => cases targetExtension? fn <;> (dsimp only; infer_instance)

instance mirrors_emitCall {target : FuncId} :
    Mirrors ρ Eq (emitCall m inst target values) (emitCall other (ρ.instDef inst) target (values.map ρ.operand)) := by
  have void : Mirrors ρ Eq (typeId m .void) (typeId other .void) := mirrors_typeId
  unfold emitCall
  rw [result?_instDef]
  cases inst.result? <;> (dsimp only [Option.map]; infer_instance)

end

section
variable {id : Word}

instance {interpolation : Interpolation} :
    Mirrors ρ Eq (decorateInterpolation id interpolation) (decorateInterpolation id interpolation) := by
  obtain ⟨ty, sampling⟩ := interpolation
  cases ty <;> cases sampling <;> (dsimp only [decorateInterpolation]; infer_instance)

instance {attributes : IoAttributes} {space : AddressSpace} :
    Mirrors ρ Eq (decorateInterface id attributes space) (decorateInterface id attributes space) := by
  unfold decorateInterface
  extract_lets last builtin interpolated mixed
  have atLast (u : Unit) : Mirrors ρ Eq (last u) (last u) := Mirrors.branch
  clear_value last
  have fromBuiltin (u : Unit) : Mirrors ρ Eq (builtin u) (builtin u) := by
    dsimp only [builtin]
    cases attributes.builtin with
    | none => exact atLast ()
    | some builtin =>
      dsimp only
      cases builtinValueCapability? builtin <;> infer_instance
  clear_value builtin
  have fromInterpolated (u : Unit) : Mirrors ρ Eq (interpolated u) (interpolated u) := by
    dsimp only [interpolated]
    cases attributes.interpolation <;> infer_instance
  clear_value interpolated
  have fromMixed (u : Unit) : Mirrors ρ Eq (mixed u) (mixed u) := by
    dsimp only [mixed]
    cases attributes.blendSource <;> infer_instance
  clear_value mixed
  cases attributes.location <;> infer_instance

theorem resourceAccess?_ty (store : Ty) (access : Access) :
    resourceAccess? (ρ.ty store) access = resourceAccess? store access := by
  cases store <;> rfl

instance {inst : InstId} {store : Ty} {access : Access} :
    Mirrors ρ Eq (decorateResource inst declaration id store access)
      (decorateResource (ρ.inst inst) (ρ.variableDecl declaration) id (ρ.ty store) access) := by
  have attached : Mirrors ρ Eq (do
      if let some index := declaration.attachmentIndex then
        match store with
        | .inputAttachment _ => decorate id [Decoration.inputAttachmentIndex, index]
        | _ => fail (.attachmentIndex inst)) (do
      if let some index := declaration.attachmentIndex then
        match ρ.ty store with
        | .inputAttachment _ => decorate id [Decoration.inputAttachmentIndex, index]
        | _ => fail (.attachmentIndex (ρ.inst inst))) := by
    cases declaration.attachmentIndex with
    | none => exact .pure
    | some index =>
      cases store
      case inputAttachment => exact .decorate
      all_goals exact .fail
  unfold decorateResource
  simp only [resourceAccess?_ty, variableDecl]
  cases declaration.bindingPoint with
  | none => exact .fail_bind
  | some point =>
    dsimp only
    rcases resourceAccess? store access with _ | _ | _ | _ <;> (dsimp only; infer_instance)

instance {storage : Word} {initializer : Option Word} :
    Mirrors ρ Eq (declareGlobal id typeWord storage initializer) (declareGlobal id typeWord storage initializer) :=
  Mirrors.declare

variable {m other : Module} [alike : Renumbered ρ m other]

instance {inst : InstId} {store : Ty} :
    Mirrors ρ Eq (declareLocal m inst declaration id typeWord store)
      (declareLocal other (ρ.inst inst) (ρ.variableDecl declaration) id typeWord (ρ.ty store)) := by
  refine .reading fun s t mirrored => ?_
  rw [mirrored.code]
  dsimp only [variableDecl]
  cases declaration.initializer <;> (dsimp only [Option.map]; infer_instance)

instance mirrors_declareVariable {options : Options} {instId : InstId} {inst : Inst} :
    Mirrors ρ Eq (declareVariable m options instId inst declaration)
      (declareVariable other options (ρ.inst instId) (ρ.instDef inst) (ρ.variableDecl declaration)) := by
  refine mirrors_resultId.same fun id => ?_
  refine (mirrors_resultOf inst).onto fun result => ?_
  refine (mirrors_value result).onto fun found => ?_
  have named : Mirrors ρ Eq (do
      if let some name := (← check (m.value result)).name then
        nameId id name) (do
      if let some name := (← check (other.value (ρ.value result))).name then
        nameId id name) := by
    refine (mirrors_value result).onto fun found => ?_
    dsimp only [valueDef]
    cases found.name <;> infer_instance
  dsimp only [valueDef]
  cases found.ty with
  | pointer space store access =>
    have typed : Mirrors ρ Eq (typeId m (.pointer space store access))
        (typeId other (.pointer space (ρ.ty store) access)) := mirrors_typeId
    dsimp only [Renumbering.ty]
    cases space
    case undefined => exact .fail_bind
    case privateLocal =>
      rcases held : declaration.initializer with _ | constant | value | word <;>
        simp only [variableDecl, held, reduceCtorEq, if_false, Option.map, operand]
      all_goals infer_instance
    all_goals
      simp only [ty_deepestElement, ty_eq_f16, reduceCtorEq, if_false, variableDecl_attributes]
      infer_instance
  | _ => exact .fail

end

end Shader.Lower
