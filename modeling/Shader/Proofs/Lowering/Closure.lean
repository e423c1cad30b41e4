import Shader.Builder
import Shader.Proofs.Lowering.Harmless

/-!
Properties that a lowering has from its steps.

A lowering is put together from a few steps that touch the state: they take ids, add instructions, store constants and
remember what has an id. A property that holds of these, and of two steps in a row if it holds of each, holds of the
lowering of any instruction. `Has` is found by walking through the step. A property may rule out the faults of control
flow, which come from the lowering of constructs and from nowhere else; then it goes as far as the constructs.
-/
namespace Shader.Lower

open Binary List Selection Decoration

variable {op : Opcode} {operands : List Operand} {ty : Ty} {struct : StructId} {index : Nat} {m : Module} {inst : Inst}
  {fn : BuiltinFn} {among : Ty → Prop}
variable {depth : Nat} {typeWord : Word} {target : Value}

/-- What is known to be false by its definition. -/
class Quiet (fact : Bool) : Prop where
  same : fact = false

instance : Quiet false := ⟨rfl⟩

/-- What is known to be true by its definition. -/
class Known (fact : Bool) : Prop where
  same : fact = true

instance : Known true := ⟨rfl⟩

/-- A property of steps, whatever they result in. -/
abbrev Property := (α : Type) → Lower α → Prop

/-- The step has the property. -/
class Has {α : Type} (P : Property) (step : Lower α) : Prop where
  has : P α step

/-- A property that steps have in a row if each has it. -/
class Composes (P : Property) : Prop where
  pure : ∀ {α : Type} (a : α), P α (pure a)
  bind : ∀ {α β : Type} {step : Lower α} {next : α → Lower β}, P α step → (∀ a, P β (next a)) → P β (step >>= next)
  get : P LowerState get
  throw : ∀ {α : Type} {failure : Failure}, failure.isPlain = true → P α (throw failure)

variable {P : Property}

namespace Has

variable {α β : Type} [composes : Composes P]
variable {step other : Lower α} {read : Except Fault α} {condition : Prop} {f : α → Lower β} {list : List α}

instance pure {a : α} : Has P (pure a) := ⟨composes.pure a⟩

instance get : Has P (get : Lower LowerState) := ⟨composes.get⟩

instance bind {next : α → Lower β} [first : Has P step] [second : ∀ a, Has P (next a)] : Has P (step >>= next) :=
  ⟨composes.bind first.has fun a => (second a).has⟩

/-- As `bind`, where what comes next is a matter of cases. -/
theorem next {next : α → Lower β} [Has P step] (second : ∀ a, Has P (next a)) : Has P (step >>= next) := inferInstance

theorem fail {fault : Fault} (plain : fault.isPlain = true) : Has P (Lower.fail fault : Lower α) :=
  ⟨composes.throw plain⟩

theorem fail_bind {fault : Fault} {next : α → Lower β} (plain : fault.isPlain = true) :
    Has P (Lower.fail fault >>= next) :=
  (fail plain : Has P (Lower.fail fault : Lower β))

theorem throw_bind {failure : Failure} {next : α → Lower β} (plain : failure.isPlain = true) :
    Has P (throw failure >>= next) :=
  (⟨composes.throw plain⟩ : Has P (throw failure : Lower β))

/-- As `next`, where it matters what was read. -/
theorem check_next {next : α → Lower β} [harmless : Harmless false read]
    (second : ∀ a, read = .ok a → Has P (next a)) : Has P (Lower.check read >>= next) := by
  cases read with
  | error fault => exact fail_bind ((harmless.fault fault rfl).resolve_right (by simp))
  | ok a => exact second a rfl

instance check [harmless : Harmless false read] : Has P (Lower.check read) := by
  cases read with
  | error fault => exact fail ((harmless.fault fault rfl).resolve_right (by simp))
  | ok a => exact pure

instance map {f : α → β} [Has P step] : Has P (f <$> step) := by
  rw [← bind_pure_comp]
  infer_instance

omit composes in
theorem of_ite [Decidable condition] (yes : condition → Has P step)
    (no : ¬condition → Has P other) : Has P (if condition then step else other) := by
  split
  · exact yes ‹_›
  · exact no ‹_›

omit composes in
instance ite [Decidable condition] [yes : Has P step] [no : Has P other] : Has P (if condition then step else other) :=
  of_ite (fun _ => yes) fun _ => no

theorem mapM_of (each : ∀ a ∈ list, Has P (f a)) : Has P (list.mapM f) := by
  induction list with
  | nil =>
    rw [mapM_nil]
    exact pure
  | cons a rest ih =>
    rw [mapM_cons]
    have first := each a mem_cons_self
    have later := ih fun b member => each b (mem_cons_of_mem _ member)
    infer_instance

instance mapM [each : ∀ a, Has P (f a)] : Has P (list.mapM f) :=
  mapM_of fun a _ => each a

instance optionMapM {found : Option α} [∀ a, Has P (f a)] : Has P (found.mapM f) := by
  cases found with
  | none => exact pure
  | some a => exact map

theorem forM_of {f : α → Lower Unit} (each : ∀ a ∈ list, Has P (f a)) : Has P (list.forM f) := by
  induction list with
  | nil => exact pure
  | cons a rest ih =>
    have first := each a mem_cons_self
    have later := ih fun b member => each b (mem_cons_of_mem _ member)
    change Has P (f a >>= fun _ => rest.forM f)
    infer_instance

instance forM {f : α → Lower Unit} [each : ∀ a, Has P (f a)] : Has P (list.forM f) :=
  forM_of fun a _ => each a

instance askPool {read : Pool → Except Fault α} [∀ pool, Harmless false (read pool)] : Has P (askPool read) := by
  unfold Lower.askPool
  infer_instance

end Has

/-- A property that a step which is cut off has. -/
class Cut (P : Property) : Prop where
  circular : ∀ {α : Type}, Has P (fail .circular : Lower α)

/-- A reading that may be cut off. -/
theorem Has.check_cut [Composes P] [cut : Cut P] {α : Type} {read : Except Fault α} (harmless : Harmless true read) :
    Has P (Lower.check read) := by
  cases read with
  | error fault =>
    rcases harmless.fault fault rfl with plain | ⟨-, rfl⟩
    · exact .fail plain
    · exact cut.circular
  | ok a => exact .pure

/-- A property, besides, of asking for a capability. -/
class Requires (P : Property) : Prop extends Composes P where
  require : ∀ capability, Has P (require capability)

/-- A property of the steps that lowering takes everywhere. -/
class Basic (P : Property) : Prop extends Requires P where
  fresh : Has P fresh
  scalar : ∀ value, Has P (intern (.scalar value))

/-- A property of the steps that declare types and constants, apart from values that are known by their type alone. -/
class HoldsOverDeclarations (P : Property) : Prop extends Basic P where
  declares : ∀ op operands, op.declares = true → Has P (declare op operands)
  annotate : ∀ op operands, op.isOutside = false → Has P (add .annotations op operands)
  constants : ∀ {constant make}, Has P make → Has P (remember .constants constant make)

/-- A property, besides, of the steps that remember types, apart from structs. -/
class HoldsOverPlainTypes (P : Property) : Prop extends HoldsOverDeclarations P where
  types : ∀ {ty make}, (∀ struct, ty ≠ .struct struct) → Has P make → Has P (remember .types ty make)

/-- A property of the steps that declare types and constants, apart from those that declare structs. -/
class HoldsOverTables (P : Property) : Prop extends HoldsOverPlainTypes P where
  declare : ∀ op operands, op.announces = false → Has P (declare op operands)
  nulls : ∀ {ty make}, Has P make → Has P (remember .nulls ty make)
  undefs : ∀ {ty make}, Has P make → Has P (remember .undefs ty make)
  declares op operands known := declare op operands (Opcode.announces_of_declares known)

/-- A property of the steps that declare types. -/
class HoldsOverTypes (m : Module) (P : Property) : Prop extends HoldsOverPlainTypes P where
  struct : ∀ {depth struct}, (∀ struct, Has P (structTypeWithin m depth struct)) →
    Has P (structTypeWithin m (depth + 1) struct)

attribute [instance] Basic.fresh Basic.scalar Requires.require

instance has_declare [declaring : HoldsOverTables P] [quiet : Quiet op.announces] :
    Has P (declare op operands) := declaring.declare _ _ quiet.same

section
variable [declaring : HoldsOverDeclarations P] {id : Word} {op : Opcode} {operands : List Operand}

instance [known : Known op.declares] : Has P (declare op operands) :=
  declaring.declares _ _ known.same

instance has_annotate [quiet : Quiet op.isOutside] : Has P (add .annotations op operands) :=
  declaring.annotate _ _ quiet.same

instance {decoration : List Word} : Has P (decorate id decoration) := has_annotate

instance {use : ImageUse} : Has P use.format := by
  cases use with
  | storage format =>
    unfold ImageUse.format
    infer_instance
  | sampled | multisampled | attachment => exact Has.pure

instance {use : ImageUse} {dim : TextureDim} {sampled : Word} :
    Has P (declareImage use dim sampled id) := by
  refine .next fun dimWord => ?_
  extract_lets formatted
  have last (u : Unit) : Has P (formatted u) := .next fun _ => inferInstance
  clear_value formatted
  split <;> infer_instance

end

section
variable [declaring : HoldsOverPlainTypes P]
variable {structType : StructId → Lower Word}

theorem has_declareType {declaration : Word → Lower Unit} (plain : ∀ struct, ty ≠ .struct struct)
    (each : ∀ id, Has P (declaration id)) : Has P (declareType ty declaration) :=
  declaring.types plain inferInstance

instance : Has P wordTypeId := has_declareType (by simp) fun _ => inferInstance

instance : Has P floatTypeId := has_declareType (by simp) fun _ => inferInstance

theorem has_wordConstantId {word : Word} : Has P (wordConstantId word) :=
  .next fun _ => declaring.constants inferInstance

theorem has_typeIdWith_of
    (each : ∀ struct ∈ ty.structs, Has P (structType struct)) : Has P (typeIdWith structType ty) := by
  induction ty with
  | struct id => exact each id (mem_singleton_self _)
  | atomic inner ih => exact ih each
  | array elem count stride ih =>
    have part := ih each
    have counted (word : Word) : Has P (wordConstantId word) := has_wordConstantId
    refine has_declareType (by simp) fun id => .next fun elemId => ?_
    cases count <;> infer_instance
  | matrix elem columns rows ih =>
    have part := ih each
    exact has_declareType (by simp) fun id =>
      @Has.bind _ _ _ _ _ _ (has_declareType (by simp) fun _ => inferInstance) inferInstance
  | vector _ _ ih | pointer _ _ _ ih | sampledTexture _ _ ih | multisampledTexture _ _ ih | storageTexture _ _ _ _ ih
  | inputAttachment _ ih | sampledImage _ ih =>
    have part := ih each
    exact has_declareType (by simp) fun id => inferInstance
  | _ => exact has_declareType (by simp) fun id => inferInstance

instance has_typeIdWith [each : ∀ struct, Has P (structType struct)] :
    Has P (typeIdWith structType ty) := has_typeIdWith_of fun struct _ => each struct

end

section
variable {m : Module} [declaring : HoldsOverTypes m P] [cut : Cut P]

instance : Has P (structTypeWithin m depth struct) := by
  induction depth generalizing struct with
  | zero => exact cut.circular
  | succ depth ih => exact declaring.struct fun struct => ih

theorem has_typeId : Has P (typeId m ty) := has_typeIdWith

end

/-- A property of the steps that declare constants of the types in `among`, the only ones there are. -/
class HoldsOverConstants (m : Module) (among : outParam (Ty → Prop)) (P : Property) : Prop
    extends HoldsOverDeclarations P where
  typeId : ∀ ty, among ty → Has P (typeId m ty)
  nullId : ∀ ty, among ty → Has P (nullId m ty)
  typeOf : ∀ {α : Type} {constant} {next : Ty → Lower α}, (∀ ty, among ty → Has P (next ty)) →
    Has P (askPool (·.typeOf constant) >>= next)

section
variable {m : Module} {constant : ConstId}

theorem has_elementIds_of [Composes P] {elementId : ConstId → Lower Word} {count : Nat} {found : List Word}
    (each : ∀ index, Has P (askPool (·.element constant index) >>= elementId)) :
    Has P (elementIds elementId constant index found count) := by
  induction count generalizing index found with
  | zero => exact .pure
  | succ count ih =>
    unfold elementIds
    rw [← bind_assoc]
    exact @Has.bind _ _ _ _ _ _ (each index) fun _ => ih

/-- A constant that is all zeros is the null value of its type, and all others are declared by what they are made of. -/
theorem has_constantIdWithin_of {among : Ty → Prop} [declaring : HoldsOverConstants m among P]
    (zero : Has P (askPool (·.allZero constant)))
    (each : ∀ index, Has P (askPool (·.element constant index) >>= constantIdWithin m depth)) :
    Has P (constantIdWithin m (depth + 1) constant) := by
  have listed {index count : Nat} {found : List Word} :
      Has P (elementIds (constantIdWithin m depth) constant index found count) := has_elementIds_of each
  refine declaring.constants (declaring.typeOf fun ty held => ?_)
  have typed := declaring.typeId ty held
  have null := declaring.nullId ty held
  have declared : Has P (declareConstant m (constantIdWithin m depth) constant ty) := by
    refine .next fun typeWord => .next fun id => .next fun stored => ?_
    split
    · unfold declareScalar
      split <;> infer_instance
    · infer_instance
  infer_instance

theorem has_constantId_among {among : Ty → Prop} [declaring : HoldsOverConstants m among P] [cut : Cut P] :
    Has P (constantId m constant) := by
  have within (depth : Nat) : Has P (constantIdWithin m depth constant) := by
    induction depth generalizing constant with
    | zero => exact cut.circular
    | succ depth ih =>
      exact has_constantIdWithin_of (.next fun s => .check_cut (harmless_allZeroWithin (.inl rfl)))
        fun index => .next fun _ => ih
  unfold constantId
  infer_instance

variable [declaring : HoldsOverTypes m P] [Cut P]

theorem has_constantId_of_null (null : ∀ ty, Has P (nullId m ty)) : Has P (constantId m constant) :=
  @has_constantId_among _ _ _ (fun _ => True) { declaring with
      typeId := fun _ _ => has_typeId
      nullId := fun ty _ => null ty
      typeOf := fun each => .next fun ty => each ty trivial } _

variable [tables : HoldsOverTables P]

omit declaring [Cut P] in
theorem has_nullId_of (typed : Has P (typeId m ty.normal)) : Has P (nullId m ty) := by
  refine tables.nulls (.of_ite (fun _ => .fail_bind rfl) fun _ => ?_)
  infer_instance

omit declaring [Cut P] in
theorem has_undefId_of (typed : Has P (typeId m ty.normal)) : Has P (undefId m ty) := tables.undefs inferInstance

theorem has_nullId : Has P (nullId m ty) := has_nullId_of has_typeId

theorem has_undefId : Has P (undefId m ty) := has_undefId_of has_typeId

theorem has_constantId : Has P (constantId m constant) :=
  has_constantId_of_null fun _ => has_nullId

end

/-- A property of the steps that name something. -/
class HoldsOverNames (P : Property) : Prop where
  name : ∀ op operands, op.announces = true → Has P (add .names op operands)

instance has_name [names : HoldsOverNames P] [known : Known op.announces] :
    Has P (add .names op operands) := names.name _ _ known.same

instance [HoldsOverNames P] {id : Word} {name : String} : Has P (nameId id name) := has_name

section
variable {m : Module} [HoldsOverDeclarations P] [HoldsOverNames P] {id : Word}

instance {member : Member} : Has P (decorateMember id index member) := by
  unfold decorateMember
  extract_lets position decorateWith last
  have decorated (words : List Word) : Has P (decorateWith words) := has_annotate
  have naming (u : Unit) : Has P (last u) := by
    dsimp only [last]
    split <;> infer_instance
  clear_value decorateWith last
  refine .next fun _ => ?_
  split
  · split
    · exact .fail_bind rfl
    · infer_instance
  · infer_instance

theorem has_declareStruct_of {typeId : Ty → Lower Word}
    (typed : ∀ {definition}, m.structDef struct = .ok definition → ∀ member ∈ definition.members,
      Has P (typeId member.ty)) : Has P (declareStruct m typeId struct id) := by
  refine .check_next fun definition isFound => ?_
  have each : Has P (definition.members.zipIdx.mapM fun pair : Member × Nat => do
      let memberType ← typeId pair.1.ty
      decorateMember id pair.2 pair.1
      return memberType) := by
    refine .mapM_of fun pair among => ?_
    have first := typed isFound pair.1 (fst_mem_of_mem_zipIdx among)
    infer_instance
  refine .next fun types => .next fun _ => ?_
  extract_lets last
  have naming (u : Unit) : Has P (last u) := by
    dsimp only [last]
    split <;> infer_instance
  clear_value last
  infer_instance

instance {typeId : Ty → Lower Word} [each : ∀ ty, Has P (typeId ty)] :
    Has P (declareStruct m typeId struct id) := has_declareStruct_of fun _ member _ => each member.ty

end

/-- Structs are declared as other types are, if their names do not matter. -/
theorem holdsOverTypes_of_names [HoldsOverPlainTypes P] [HoldsOverNames P]
    (types : ∀ {ty make}, Has P make → Has P (remember .types ty make)) : HoldsOverTypes m P :=
  ⟨fun _ => types (.next fun _ => .next fun _ => .pure)⟩

/-- A property of the steps that the lowering of an instruction takes whatever the module is. -/
class HoldsOverCode (P : Property) : Prop extends Basic P where
  emit : ∀ op operands, op.isOutside = false → Has P (emit op operands)
  emitLocal : ∀ operands, Has P (emitLocal operands)
  requireExtension : ∀ name, Has P (requireExtension name)
  labelId : ∀ block, Has P (labelId block)
  mergeId : ∀ construct, Has P (mergeId construct)
  functionId : ∀ function, Has P (functionId function)
  extendedSetId : Has P extendedSetId
  wordConstantId : ∀ word, Has P (wordConstantId word)

/-- A choice of types that has those of what a module defines, and with a type those that lowering takes from it. -/
class Grants (m : Module) (among : Ty → Prop) : Prop where
  void : among .void
  value : ∀ {id found}, m.value id = .ok found → among found.ty
  returned : ∀ {ref function}, m.function ref = .ok function → among function.returnType
  store : ∀ {space store access}, among (.pointer space store access) → among store
  element : ∀ {index ty elem}, among ty → m.elementType index ty = .ok elem → among elem
  component : ∀ {space elem width access}, among (.pointer space (.vector elem width) access) →
    among (.pointer space elem access)

instance : Grants m fun _ => True := by constructor <;> intros <;> trivial

/-- The type is one of the choice. -/
class Granted (among : Ty → Prop) (ty : Ty) : Prop where
  granted : among ty

instance : Granted (fun _ => True) ty := ⟨trivial⟩

/-- Store a vector of ones and a vector of zeros. -/
def internSplats (ty : Ty) (one zero : Scalar) (count : UInt32) : Lower (ConstId × ConstId) := do
  let one ← intern (.scalar one)
  let zero ← intern (.scalar zero)
  let ones ← intern (.splat ty one count)
  let zeros ← intern (.splat ty zero count)
  return (ones, zeros)

theorem has_internSplats [basic : Basic P] {one zero : Scalar} {count : UInt32}
    (splat : ∀ element, Has P (intern (.splat ty element count))) : Has P (internSplats ty one zero count) := by
  unfold internSplats
  infer_instance

/-- A property of the steps that the lowering of an instruction takes, apart from the declaration of variables. Types
are asked for only if they are in `among`. -/
class HoldsOverValues (m : Module) (among : outParam (Ty → Prop)) (P : Property) : Prop
    extends HoldsOverCode P, Grants m among where
  typeId : ∀ ty, among ty → Has P (typeId m ty)
  nullId : ∀ ty, among ty → Has P (nullId m ty)
  undefId : ∀ ty, among ty → Has P (undefId m ty)
  splats : ∀ ty one zero count, among ty → Has P (internSplats ty one zero count)
  typeOf : ∀ {α : Type} {value} {next : Ty → Lower α}, (∀ ty, among ty → Has P (next ty)) →
    Has P (typeOf m value >>= next)
  constantId : ∀ constant, Has P (constantId m constant)
  definedId : ∀ value, Has P (valueId m (.ssa value))
  enterValue : ∀ value id, Has P (enter .values value id)
  nameResults : ∀ inst, Has P (nameResults m inst)

attribute [instance] HoldsOverCode.emitLocal HoldsOverCode.requireExtension
  HoldsOverCode.labelId HoldsOverCode.mergeId HoldsOverCode.functionId HoldsOverCode.extendedSetId
  HoldsOverCode.wordConstantId HoldsOverValues.constantId HoldsOverValues.definedId HoldsOverValues.enterValue
  HoldsOverValues.nameResults

instance [code : HoldsOverCode P] [quiet : Quiet op.isOutside] :
    Has P (emit op operands) := code.emit _ _ quiet.same

theorem has_resultOf_bind [Composes P] {β : Type} {next : ValueId → Lower β}
    (second : ∀ result, inst.result? = some result → Has P (next result)) : Has P (resultOf inst >>= next) := by
  unfold resultOf
  cases defined : inst.result? with
  | none => exact .fail_bind rfl
  | some result => exact second result defined

instance [Composes P] : Has P (resultOf inst) := by
  rw [← bind_pure (resultOf inst)]
  exact has_resultOf_bind fun _ _ => .pure

instance [Composes P] {value : Value} : Has P (knownIndex? value) := by
  cases value <;> (unfold knownIndex?; infer_instance)

theorem has_nameResults [Composes P] [HoldsOverNames P] (defined : ∀ value, Has P (valueId m (.ssa value))) :
    Has P (nameResults m inst) := by
  refine @Has.forM _ _ _ _ _ fun result => .next fun name => ?_
  split <;> infer_instance

/-- Nothing needs to be known of a type if all types are in the choice. -/
theorem has_typeOf_any [Composes P] {α : Type} {value : Value} {next : Ty → Lower α}
    (each : ∀ ty, True → Has P (next ty)) : Has P (typeOf m value >>= next) :=
  @Has.bind _ _ _ _ _ _ Has.askPool fun ty => each ty trivial

section
variable {m : Module} {inst : Inst} {value : Value} {values : List Value} {result : ValueId}
  {among : Ty → Prop} [covers : HoldsOverValues m among P]

section
variable {ty : Ty} [held : Granted among ty]

instance : Has P (typeId m ty) := covers.typeId ty held.granted

instance : Has P (nullId m ty) := covers.nullId ty held.granted

instance : Has P (undefId m ty) := covers.undefId ty held.granted

end

section
variable {β : Type}

/-- As `next`, where the type of a value is in the choice. -/
theorem has_typeOf_next {next : Ty → Lower β} (each : ∀ ty, Granted among ty → Has P (next ty)) :
    Has P (typeOf m value >>= next) := covers.typeOf fun ty held => each ty ⟨held⟩

theorem has_value_next {next : ValueDef → Lower β} (each : ∀ found, Granted among found.ty → Has P (next found)) :
    Has P (check (m.value result) >>= next) :=
  .check_next fun found isFound => each found ⟨covers.value isFound⟩

theorem has_resultType_next {next : Ty → Lower β} (each : ∀ ty, Granted among ty → Has P (next ty)) :
    Has P (resultType m inst >>= next) := by
  simp only [resultType, bind_assoc, pure_bind]
  exact has_resultOf_bind fun result _ => has_value_next fun found => each found.ty

end

instance : Has P (valueId m value) := by
  cases value with
  | constant id => exact covers.constantId id
  | literal word => exact Has.pure
  | ssa id => exact covers.definedId id

instance : Has P (aliasTo m result value) := by
  refine .next fun source => .next fun s => ?_
  split
  · exact has_value_next fun found held => inferInstance
  · infer_instance

instance : Has P (resultTypeId m inst) := has_resultType_next fun _ _ => inferInstance

instance : Has P (resultId m inst) := by
  unfold resultId
  infer_instance

instance : Has P (passThrough m inst value) := by
  unfold passThrough
  infer_instance

instance : Has P (operandIds m values) := by
  unfold operandIds
  infer_instance

instance {id source : Word} [held : Granted among ty] {path : List Word} :
    Has P (extract m typeWord id source ty path values) := by
  induction values generalizing ty path with
  | nil =>
    unfold extract
    infer_instance
  | cons index indices ih =>
    refine .next fun known => ?_
    split
    · exact .check_next fun elem isElem => @ih elem ⟨covers.element held.granted isElem⟩ _
    · split
      · infer_instance
      · exact .fail rfl

instance : Has P (emitAccess m inst value values) := by
  refine has_resultType_next fun ty held => .next fun typeWord => .next fun id => .next fun source => ?_
  split
  · infer_instance
  · exact has_typeOf_next fun _ _ => inferInstance

instance {op : BinaryOp} {other : Value} : Has P (emitBinary m inst op value other) := by
  refine has_resultType_next fun ty held => has_typeOf_next fun lhsType _ => .check_next fun opcode chosen => ?_
  have quiet : Quiet opcode.isOutside := ⟨binary_quiet chosen⟩
  infer_instance

instance {op : UnaryOp} : Has P (emitUnary m inst op value) := by
  refine has_resultType_next fun ty held => .check_next fun opcode chosen => ?_
  have quiet : Quiet opcode.isOutside := ⟨unary_quiet chosen⟩
  infer_instance

instance : Has P (emitBitcast m inst value) := by
  exact has_resultType_next fun ty held => has_typeOf_next fun other _ => inferInstance

instance : Has P (emitConvert m inst value) := by
  unfold emitConvert
  refine has_resultType_next fun target held => has_typeOf_next fun source known => .next fun typeWord =>
    .next fun id => .next fun operand => .check_next fun conversion chosen => ?_
  split
  · exact covers.emit _ _ (conversion_quiet (.inl chosen))
  · exact .next fun null => covers.emit _ _ (conversion_quiet (.inr chosen))
  · rename_i one zero
    have selected (pair : ConstId × ConstId) : Has P (do
        let oneId ← constantId m pair.1
        let zeroId ← constantId m pair.2
        emit .select [.id typeWord, .id id, .id operand, .id oneId, .id zeroId]) := inferInstance
    cases target with
    | vector elem width =>
      have splats := covers.splats _ one zero width held.granted
      have both := @Has.bind _ _ _ _ _ _ splats selected
      simpa only [internSplats, bind_assoc, pure_bind] using both
    | _ => exact .next fun one => .next fun zero => selected (one, zero)

instance : Has P (emitConstruct m inst values) := by
  unfold emitConstruct
  refine has_resultType_next fun ty held => ?_
  extract_lets build
  have built (same : Option Value) : Has P (build same) := by
    dsimp only [build]
    split <;> infer_instance
  split
  · exact has_typeOf_next fun other _ => inferInstance
  · infer_instance

instance {indices : List UInt32} : Has P (emitSwizzle m inst value indices) := by
  unfold emitSwizzle
  infer_instance

instance : Has P (emitLoad m inst value) := by
  unfold emitLoad
  infer_instance

instance : Has P (emitStore m target value) := by
  unfold emitStore
  infer_instance

instance {index : Value} : Has P (elementPointer m value index) := by
  refine has_typeOf_next fun ty held => ?_
  split
  · have component := Granted.mk (covers.component held.granted)
    infer_instance
  · exact .fail rfl
  · exact .fail rfl

instance {index : Value} : Has P (emitLoadElement m inst value index) := by
  unfold emitLoadElement
  infer_instance

instance {index : Value} : Has P (emitStoreElement m target index value) := by
  unfold emitStoreElement
  infer_instance

instance : Has P (resultOperands m inst) := by
  unfold resultOperands
  split
  · infer_instance
  · exact has_value_next fun found held => inferInstance

instance : Has P (builtinOperands m fn values) := by
  unfold builtinOperands subgroupScope
  split <;> infer_instance

include covers in
theorem has_emitForm {form : Form} (chosen : builtin? fn ty = some form) :
    Has P (emitForm m inst fn values form) := by
  cases form with
  | barrier memory =>
    unfold emitForm emitBarrier
    infer_instance
  | extended code =>
    unfold emitForm
    infer_instance
  | instruction op =>
    have quiet : Quiet op.isOutside := ⟨builtin?_quiet chosen⟩
    unfold emitForm
    infer_instance

instance : Has P (identityArgument? m inst fn ty values) := by
  unfold identityArgument?
  split
  · infer_instance
  · refine has_typeOf_next fun ty _ => ?_
    split <;> infer_instance

instance : Has P (emitBuiltin m inst fn values) := by
  unfold emitBuiltin
  extract_lets call
  have called (ty : Ty) : Has P (call ty) := by
    refine .next fun same => ?_
    split
    · infer_instance
    · split
      · exact .fail rfl
      · rename_i form chosen
        have formed : Has P (emitForm m inst fn values form) := has_emitForm chosen
        split <;> infer_instance
  split
  · exact has_value_next fun found _ => called found.ty
  · exact called .void

instance {fn : TargetFn} : Has P (emitTargetCall m inst fn values) := by
  unfold emitTargetCall
  split
  · exact .fail rfl
  · rename_i op chosen
    have quiet : Quiet op.isOutside := ⟨target?_quiet chosen⟩
    split <;> infer_instance

instance {target : FuncId} : Has P (emitCall m inst target values) := by
  have void : Granted among .void := ⟨covers.void⟩
  unfold emitCall
  split <;> infer_instance

instance {id : InstId} {declaration : Variable} {word : Word} {store : Ty}
    [Granted among store] : Has P (declareLocal m id declaration word typeWord store) := by
  unfold declareLocal
  refine .next fun s => .of_ite (fun _ => .fail_bind rfl) fun _ => ?_
  split <;> infer_instance

end

/-- A property of the decorations that do not lay out a type. -/
class HoldsOverDecorations (P : Property) : Prop where
  decorate : ∀ id kind rest, kind ≠ arrayStride → Has P (decorate id (kind :: rest))

instance [HoldsOverDeclarations P] : HoldsOverDecorations P :=
  ⟨fun _ _ _ _ => inferInstance⟩

section
variable [Requires P] [decorating : HoldsOverDecorations P] {id : Word}

instance {interpolation : Interpolation} :
    Has P (decorateInterpolation id interpolation) := by
  have noPerspective := decorating.decorate id noPerspective [] (by decide)
  have flat := decorating.decorate id flat [] (by decide)
  have centroid := decorating.decorate id centroid [] (by decide)
  have sample := decorating.decorate id sample [] (by decide)
  unfold decorateInterpolation
  repeat' (first | infer_instance | split)

instance has_decorateInterface {attributes : IoAttributes} {space : AddressSpace} :
    Has P (decorateInterface id attributes space) := by
  have location (word : Word) := decorating.decorate id Decoration.location [word] (by decide)
  have source (word : Word) := decorating.decorate id Decoration.index [word] (by decide)
  have built (word : Word) := decorating.decorate id Decoration.builtIn [word] (by decide)
  have invariant := decorating.decorate id Decoration.invariant [] (by decide)
  unfold decorateInterface
  extract_lets last builtin interpolated mixed
  have atLast (u : Unit) : Has P (last u) := Has.ite
  clear_value last
  have fromBuiltin (u : Unit) : Has P (builtin u) := by
    dsimp only [builtin]
    repeat' (first | infer_instance | split)
  clear_value builtin
  have fromInterpolated (u : Unit) : Has P (interpolated u) := by
    dsimp only [interpolated]
    split <;> infer_instance
  clear_value interpolated
  have fromMixed (u : Unit) : Has P (mixed u) := by
    dsimp only [mixed]
    split <;> infer_instance
  clear_value mixed
  split <;> infer_instance

instance has_decorateResource {inst : InstId} {declaration : Variable} {store : Ty} {access : Access} :
    Has P (decorateResource inst declaration id store access) := by
  have group (word : Word) := decorating.decorate id descriptorSet [word] (by decide)
  have binding (word : Word) := decorating.decorate id binding [word] (by decide)
  have read := decorating.decorate id nonWritable [] (by decide)
  have write := decorating.decorate id nonReadable [] (by decide)
  have index (word : Word) := decorating.decorate id inputAttachmentIndex [word] (by decide)
  unfold decorateResource
  repeat' (first | infer_instance | exact .fail rfl | exact .fail_bind rfl | split)

end

section
variable {m : Module} {options : Options} {inst : Inst} {id : InstId} {declaration : Variable}

theorem has_declareVariable [covers : HoldsOverValues m among P] [HoldsOverDecorations P] [HoldsOverNames P]
    (global : ∀ word typeWord storage initializer, Has P (declareGlobal word typeWord storage initializer)) :
    Has P (declareVariable m options id inst declaration) := by
  refine .next fun word => .next fun result => has_value_next fun found held => ?_
  generalize found.ty = pointer at held
  cases pointer with
  | pointer space store access =>
    have stored := Granted.mk (covers.store held.granted)
    refine .of_ite (fun _ => .fail_bind rfl) fun _ => .next fun typeWord => ?_
    extract_lets last
    have naming (u : Unit) : Has P (last u) := .next fun value => by split <;> infer_instance
    clear_value last
    cases space with
    | functionLocal | pushConstant | undefined => infer_instance
    | input | output =>
      dsimp only
      split <;> infer_instance
    | handle | storage | uniform => infer_instance
    | privateLocal =>
      dsimp only
      split
      · infer_instance
      · exact .fail_bind rfl
      · infer_instance
    | workgroup =>
      dsimp only
      split <;> infer_instance
  | _ => exact .fail rfl

end

/-- A property that does not look at the faults of control flow. -/
class Tolerant (P : Property) : Prop where
  fail : ∀ {α : Type} {fault : Fault}, fault.ofControlFlow = true → Has P (fail fault : Lower α)

/-- A property of the declaration of variables. -/
class DeclaringVariables (m : Module) (options : Options) (P : Property) : Prop where
  declareVariable : ∀ id inst declaration, Has P (declareVariable m options id inst declaration)

attribute [instance] DeclaringVariables.declareVariable

section
variable {id : InstId} [tolerant : Tolerant P]

instance [Composes P] {label : Option Word} {kind : Kind} : Has P (targetLabel label kind id) := by
  unfold targetLabel
  split
  · infer_instance
  · exact tolerant.fail rfl

instance [Composes P] {label : Word} {selector : Selector} :
    Has P (selectorOperands id label selector) := by
  cases selector with
  | otherwise => exact .pure
  | value constant =>
    refine .next fun word => ?_
    split
    · infer_instance
    · exact tolerant.fail rfl

instance [Composes P] {s : Switch} : Has P (check (defaultBlock id s)) := by
  unfold defaultBlock
  split
  · exact .pure
  · exact tolerant.fail rfl
  · exact tolerant.fail rfl

instance [HoldsOverCode P] {case : Case} : Has P (caseOperands id case) := by
  unfold caseOperands
  infer_instance

end

/-- The labels that constructs of the kind set are there. -/
def Scopes.Has (scopes : Scopes) : ConstructKind → Prop
  | .conditional => scopes.ifMerge.isSome
  | .loop => scopes.loopHeader.isSome ∧ scopes.loopMerge.isSome
  | .switch => scopes.switchMerge.isSome

/-- The labels of one more construct are there. -/
def Scopes.Adds (scopes : Scopes) (sort : ConstructKind) (inner : Scopes) : Prop :=
  ∀ other, inner.Has other ↔ scopes.Has other ∨ other = sort

section
variable {m : Module} {options : Options} {scopes : Scopes} {inst : Inst} {id : InstId} {block : BlockId}
  {among : Ty → Prop} [covers : HoldsOverValues m among P]

instance {blocks : List BlockId} : Has P (emptyLabels m blocks) := by
  unfold emptyLabels
  infer_instance

section
variable {body : Scopes → BlockId → Lower Unit} [incoming : ∀ block, Has P (emitIncomingPhis m block)]
include covers incoming

theorem has_emitBlock_of (inside : Has P (body scopes block)) : Has P (emitBlock m body scopes block) := by
  refine .next fun label => .next fun _ => .next fun b => ?_
  split
  · split <;> infer_instance
  · infer_instance

theorem has_emitConditional_of {c : Conditional}
    (phis : Has P (emitExitPhis m id inst c.exits [c.whenTrue, c.whenFalse]))
    (inside : ∀ inner child, scopes.Adds .conditional inner → child ∈ [c.whenTrue, c.whenFalse] →
      Has P (body inner child)) :
    Has P (emitConditional m body scopes id inst c) := by
  refine .next fun merge => ?_
  extract_lets inner
  have adds : scopes.Adds .conditional inner := by
    intro other
    cases other <;> simp [inner, Scopes.Has]
  have whenTrue : Has P (emitBlock m body inner c.whenTrue) := has_emitBlock_of (inside inner _ adds (by simp))
  have whenFalse : Has P (emitBlock m body inner c.whenFalse) := has_emitBlock_of (inside inner _ adds (by simp))
  refine .next fun emitTrue => .next fun emitFalse => ?_
  cases emitTrue <;> cases emitFalse <;> simp only [if_true, Bool.false_eq_true, if_false]
  all_goals
    refine .next fun _ => .next fun _ => .next fun _ => .next fun _ => .next fun _ => ?_
    infer_instance

theorem has_emitLoop_of {l : Loop} (phis : Has P (emitExitPhis m id inst l.exits []))
    (inside : ∀ inner child, scopes.Adds .loop inner → child ∈ l.initializer.toList ++ [l.body, l.continuing] →
      Has P (body inner child)) :
    Has P (emitLoop m body scopes id inst l) := by
  refine .next fun initial => .next fun bodyLabel => .next fun continuing => .next fun header => .next fun merge => ?_
  extract_lets inner merged entered
  have adds : scopes.Adds .loop inner := by
    intro other
    cases other <;> simp [inner, Scopes.Has]
  have within : Has P (body inner l.body) := inside inner _ adds (by simp)
  have last : Has P (emitBlock m body inner l.continuing) := has_emitBlock_of (inside inner _ adds (by simp))
  have first (initializer : BlockId) (isFirst : l.initializer = some initializer) :
      Has P (emitBlock m body inner initializer) := has_emitBlock_of (inside inner _ adds (by simp [isFirst]))
  have after (u : Unit) : Has P (merged u) := .next fun _ => inferInstance
  have rest (u : Unit) : Has P (entered u) := by
    clear_value merged
    refine .next fun _ => .next fun _ => .next fun _ => .next fun _ => .next fun _ => .next fun _ =>
      .next fun terminator => ?_
    split <;> infer_instance
  clear_value entered
  split
  · rename_i initializer label isFirst
    have begin := first initializer isFirst
    infer_instance
  · infer_instance

theorem has_emitSwitch_of {s : Switch} (default : Has P (check (defaultBlock id s)))
    (selectors : ∀ case ∈ s.cases, Has P (caseOperands id case)) (phis : Has P (emitExitPhis m id inst s.exits []))
    (inside : ∀ inner child, scopes.Adds .switch inner → child ∈ s.cases.map Case.block → Has P (body inner child)) :
    Has P (emitSwitch m body scopes id inst s) := by
  have operands := Has.mapM_of selectors
  refine .next fun _ => .next fun label => .next fun condition => .next fun cases => .next fun merge => ?_
  extract_lets inner
  have adds : scopes.Adds .switch inner := by
    intro other
    cases other <;> simp [inner, Scopes.Has]
  have each : Has P (s.cases.forM fun case => emitBlock m body inner case.block) :=
    .forM_of fun case member => has_emitBlock_of (inside inner _ adds (mem_map_of_mem member))
  exact .next fun _ => .next fun _ => inferInstance

end

variable [tolerant : Tolerant P]

instance : Has P (leavingLabel m id) := by
  refine .next fun branch => .next fun b => ?_
  dsimp only
  split
  · exact tolerant.fail rfl
  · refine .next fun construct => ?_
    split <;> infer_instance

instance : Has P (incoming m block index id) := by
  refine .next fun branch => ?_
  split
  · exact tolerant.fail rfl
  · infer_instance

instance : Has P (emitIncomingPhis m block) := by
  exact .next fun b => @Has.forM _ _ _ _ _ fun (param, index) => has_value_next fun found held => inferInstance

instance {construct : InstId} : Has P (outgoing m construct index id) := by
  refine .next fun branch => ?_
  split
  · exact tolerant.fail rfl
  · infer_instance

instance {exits : List InstId} {implicit : List BlockId} :
    Has P (emitExitPhis m id inst exits implicit) := by
  refine @Has.forM _ _ _ _ _ fun (result, index) => ?_
  have explicit (branch : Word × Value) :
      Has P (do return [Operand.id (← valueId m branch.2), .id branch.1]) := inferInstance
  exact has_value_next fun found held => .next fun branches => .next fun empty => inferInstance

instance {kind : Kind} : Has P (emitTerminator m scopes id kind) := by
  unfold emitTerminator
  split
  all_goals first | infer_instance | skip
  refine .next fun target => ?_
  split
  · infer_instance
  · exact tolerant.fail rfl

variable {body : Scopes → BlockId → Lower Unit} [DeclaringVariables m options P]

include covers in
theorem has_emitInst_of
    (inside : ∀ {inst}, m.inst id = .ok inst → ∀ inner, ∀ child ∈ inst.kind.children, Has P (body inner child)) :
    Has P (emitInst m options body scopes id) := by
  refine .check_next fun inst held => ?_
  have entering (sort : ConstructKind) (inner : Scopes) (child : BlockId) (_ : scopes.Adds sort inner)
      (owned : child ∈ inst.kind.children) : Has P (body inner child) := inside held inner child owned
  have kind : Has P (emitKind m options body scopes id inst) := by
    unfold emitKind
    split
    case h_17 c isConditional =>
      rw [isConditional] at entering
      exact has_emitConditional_of inferInstance (entering _)
    case h_18 l isLoop =>
      rw [isLoop] at entering
      exact has_emitLoop_of inferInstance (entering _)
    case h_19 s isSwitch =>
      rw [isSwitch] at entering
      exact has_emitSwitch_of inferInstance (fun _ _ => inferInstance) inferInstance (entering _)
    all_goals infer_instance
  refine .next fun _ => ?_
  split <;> infer_instance

instance [each : ∀ scopes block, Has P (body scopes block)] : Has P (emitInst m options body scopes id) :=
  has_emitInst_of fun _ inner child _ => each inner child

instance has_emitBodyWithin [cut : Cut P] : Has P (emitBodyWithin m options depth scopes block) := by
  induction depth generalizing scopes block with
  | zero => exact cut.circular
  | succ depth ih =>
    unfold emitBodyWithin
    infer_instance

include covers in
omit tolerant in
theorem has_emitRoot : Has P (emitRoot m options) := by
  have root : Harmless false m.rootBlock := harmless_block
  refine .next fun root => @Has.forM _ _ _ _ _ fun id => .next fun inst => ?_
  split
  · infer_instance
  · exact .fail rfl

end

/-- A property of the walk that collects the values which a function uses. -/
class ReadsUses (m : Module) (P : Property) : Prop where
  valuesUsedUnder : ∀ block, Has P (check (m.valuesUsedUnder block))

instance [Composes P] [Cut P] : ReadsUses m P :=
  ⟨fun _ => .check_cut (harmless_valuesUsedUnder (.inl rfl))⟩

/-- A property of the steps that say how an entry point is run. -/
class HoldsOverModes (P : Property) : Prop where
  executionMode : ∀ operands, Has P (add .executionModes .executionMode operands)

/-- A property of the steps that declare functions and go into their bodies. -/
class HoldsOverFunctions (P : Property) : Prop extends HoldsOverModes P where
  entryPoint : ∀ operands, Has P (add .entryPoints .entryPoint operands)
  signatureId : ∀ signature, Has P (signatureId signature)
  start : ∀ {declaration label params code}, FunctionCode.start declaration label params = .ok code →
    Has P (modify fun state => { state with code := some code })
  finish : Has P (modify fun state =>
    { state with code := none, out := state.code.toList.foldl Assembly.pushFunction state.out })

attribute [instance] HoldsOverModes.executionMode HoldsOverFunctions.entryPoint HoldsOverFunctions.signatureId
  HoldsOverFunctions.finish

section
variable {m : Module} {options : Options} {function : Function} {word : Word}

instance has_executionModel [Composes P] [HoldsOverModes P] : Has P (executionModel function word) := by
  unfold executionModel
  extract_lets addMode
  have mode (words : List Word) : Has P (addMode words) := HoldsOverModes.executionMode _
  clear_value addMode
  split
  · split
    · exact .fail_bind rfl
    · infer_instance
  · infer_instance
  · infer_instance

instance [HoldsOverValues m among P] [HoldsOverFunctions P] {used : List ValueId} {root : InstId} :
    Has P (interfaceId m used word root) := by
  refine .next fun found => ?_
  split <;> infer_instance

instance [HoldsOverValues m among P] [HoldsOverFunctions P] [used : ReadsUses m P] :
    Has P (emitEntryPoint m function word) := by
  have root : Harmless false m.rootBlock := harmless_block
  have uses := used.valuesUsedUnder function.entry
  unfold emitEntryPoint
  infer_instance

theorem has_emitFunction [covers : HoldsOverValues m among P] [HoldsOverFunctions P] [HoldsOverNames P] [ReadsUses m P]
    {ref : FuncId}
    (body : ∀ function, m.function ref = .ok function → Has P (emitBody m options function.entry)) :
    Has P (emitFunction m options ref) := by
  refine .check_next fun function declared => .of_ite (fun _ => .throw_bind rfl) fun _ => .next fun id =>
    .next fun _ => ?_
  have inside := body function declared
  have returned := Granted.mk (covers.returned declared)
  have parameter (param : ValueId) : Has P (emitParameter m param) := by
    refine .next fun id => has_value_next fun value held => .next fun typeWord => .next fun declaration => ?_
    split <;> infer_instance
  extract_lets rest
  have last (u : Unit) : Has P (rest u) :=
    .next fun returnType => .next fun params => .next fun signature => .next fun declaration =>
      .next fun label => .check_next fun code started => @Has.bind _ _ _ _ _ _ (HoldsOverFunctions.start started)
        inferInstance
  clear_value rest
  split <;> infer_instance

end
end Shader.Lower
