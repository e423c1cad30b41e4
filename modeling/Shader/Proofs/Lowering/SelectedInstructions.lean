import Shader.Proofs.Lowering.ValueAccess

/-!
The instructions of operators and conversions.

An operator has an instruction for each kind of numbers that it works on. One type selects among them: that of the
result where the operator computes with numbers, and that of the operand on the left otherwise. If no instruction of
an operator works on the type, lowering stops, unless the operator is one of the few that fall back on an instruction
unseen.

A conversion is selected by what the components of both types are. Whether the types have the same shape is not looked
at, but a conversion between types of one shape is what a table of scalars says.
-/
namespace Shader

open Binary Selection Ty

variable {source target : Ty}

/-- Whether an instruction of an operator works on values of the type. -/
def Binary.Opcode.accepts (op : Opcode) (ty : Ty) : Bool :=
  match op with
  | .iAdd | .iSub | .iMul | .bitwiseAnd | .bitwiseOr | .bitwiseXor | .iEqual | .iNotEqual | .shiftLeftLogical
  | .not => ty.isInteger
  | .sDiv | .sRem | .sLessThan | .sGreaterThan | .sLessThanEqual | .sGreaterThanEqual | .shiftRightArithmetic
  | .sNegate => ty.isSigned
  | .uDiv | .uMod | .uLessThan | .uGreaterThan | .uLessThanEqual | .uGreaterThanEqual | .shiftRightLogical =>
    ty.isUnsigned
  | .fAdd | .fSub | .fMul | .fDiv | .fRem | .fOrdEqual | .fOrdNotEqual | .fOrdLessThan | .fOrdGreaterThan
  | .fOrdLessThanEqual | .fOrdGreaterThanEqual | .fNegate => ty.isFloat
  | .logicalAnd | .logicalOr | .logicalEqual | .logicalNotEqual | .logicalNot => ty.isBool
  | _ => false

namespace BinaryOp

/-- The instructions of the operator. -/
def opcodes : BinaryOp → List Opcode
  | .add => [.iAdd, .fAdd]
  | .subtract => [.iSub, .fSub]
  | .multiply => [.iMul, .fMul]
  | .divide => [.sDiv, .uDiv, .fDiv]
  | .modulo => [.sRem, .uMod, .fRem]
  | .and => [.bitwiseAnd, .logicalAnd]
  | .or => [.bitwiseOr, .logicalOr]
  | .xor => [.bitwiseXor]
  | .equal => [.logicalEqual, .iEqual, .fOrdEqual]
  | .notEqual => [.logicalNotEqual, .iNotEqual, .fOrdNotEqual]
  | .lessThan => [.sLessThan, .uLessThan, .fOrdLessThan]
  | .greaterThan => [.sGreaterThan, .uGreaterThan, .fOrdGreaterThan]
  | .lessThanEqual => [.sLessThanEqual, .uLessThanEqual, .fOrdLessThanEqual]
  | .greaterThanEqual => [.sGreaterThanEqual, .uGreaterThanEqual, .fOrdGreaterThanEqual]
  | .shiftLeft => [.shiftLeftLogical]
  | .shiftRight => [.shiftRightArithmetic, .shiftRightLogical]
  | .logicalAnd | .logicalOr => []

/-- The type that selects the instruction, of the type of the result and that of the operand on the left. -/
def selector (op : BinaryOp) (ty lhs : Ty) : Ty :=
  match op with
  | .add | .subtract | .multiply | .divide | .modulo => ty
  | _ => lhs

/-- The instruction of the operator if it has none for the type. -/
def fallback? : BinaryOp → Option Opcode
  | .add => some .fAdd
  | .subtract => some .fSub
  | .xor => some .bitwiseXor
  | .shiftLeft => some .shiftLeftLogical
  | _ => none

end BinaryOp

namespace UnaryOp

def opcodes : UnaryOp → List Opcode
  | .complement => [.not]
  | .negation => [.fNegate, .sNegate]
  | .not => [.logicalNot]

def fallback? : UnaryOp → Option Opcode
  | .complement => some .not
  | .negation => none
  | .not => some .logicalNot

end UnaryOp

/-- The first of the instructions that works on the type. -/
def Binary.Opcode.among? (opcodes : List Opcode) (ty : Ty) : Option Opcode := opcodes.find? (·.accepts ty)

namespace Selection

theorem isInteger_eq (ty : Ty) : ty.isInteger = (ty.isSigned || ty.isUnsigned) := by
  simp only [isInteger, isSigned, isUnsigned]
  cases ty.component <;> rfl

/-- An operator is lowered to its instruction for the selecting type, or to the one that it falls back on. -/
theorem binary?_eq (op : BinaryOp) (ty lhs : Ty) :
    binary? op ty lhs = (Opcode.among? op.opcodes (op.selector ty lhs)).or op.fallback? := by
  cases op <;> simp only [binary?, byOperand, byNumber, BinaryOp.opcodes, BinaryOp.selector, BinaryOp.fallback?,
    Opcode.among?, List.find?_cons, List.find?_nil, Opcode.accepts, isInteger_eq]
  case logicalAnd | logicalOr => rfl
  case add | subtract | multiply | divide | modulo =>
    cases ty.isSigned <;> cases ty.isUnsigned <;> cases ty.isFloat <;> rfl
  all_goals cases lhs.isBool <;> cases lhs.isSigned <;> cases lhs.isUnsigned <;> cases lhs.isFloat <;> rfl

theorem binary_eq (op : BinaryOp) (ty lhs : Ty) :
    (binary op ty lhs).toOption = (Opcode.among? op.opcodes (op.selector ty lhs)).or op.fallback? := by
  rw [← binary?_eq]
  unfold binary
  split
  · rfl
  · rfl
  · cases binary? op ty lhs <;> rfl

theorem unary_eq (op : UnaryOp) (ty : Ty) : (unary op ty).toOption = (Opcode.among? op.opcodes ty).or op.fallback? := by
  cases op <;> simp only [unary, UnaryOp.opcodes, UnaryOp.fallback?, Opcode.among?, List.find?_cons, List.find?_nil,
    Opcode.accepts]
  · cases ty.isInteger <;> rfl
  · cases ty.isFloat <;> cases ty.isSigned <;> rfl
  · cases ty.isBool <;> rfl

/-- How a scalar becomes one of another type. -/
def ofScalar? : Ty → Ty → Option Conversion
  | .f32, .i32 | .f16, .i32 => some (.direct .convertFToS)
  | .f32, .u32 | .f16, .u32 => some (.direct .convertFToU)
  | .i32, .f32 | .i32, .f16 => some (.direct .convertSToF)
  | .u32, .f32 | .u32, .f16 => some (.direct .convertUToF)
  | .f32, .f16 | .f16, .f32 => some (.direct .fConvert)
  | .i32, .i32 | .i32, .u32 | .u32, .i32 | .u32, .u32 => some (.direct .bitcast)
  | .i32, .bool | .u32, .bool => some (.fromNull .iNotEqual)
  | .f32, .bool | .f16, .bool => some (.fromNull .fUnordNotEqual)
  | .bool, .f32 => some (.choose (.f32 0x3F800000) (.f32 0))
  | .bool, .f16 => some (.choose (.f16 0x3C00) (.f16 0))
  | .bool, .i32 => some (.choose (.i32 1) (.i32 0))
  | .bool, .u32 => some (.choose (.u32 1) (.u32 0))
  | _, _ => none

/-- How a value is converted by its components. The shape only matters between floats and between integers, where the
sizes in bytes are compared, and a truth value becomes what a type is made of in the end. -/
def ofComponent? (source target : Ty) : Option Conversion :=
  if source.isFloat && target.isFloat then
    if source.byteSize? = target.byteSize? then none else some (.direct .fConvert)
  else if source.isInteger && target.isInteger then
    if source.byteSize? = target.byteSize? then some (.direct .bitcast) else none
  else ofScalar? source.component (if source.isBool then target.deepestElement else target.component)

/-- Two scalars, or two vectors of scalars with as many components, few enough for their size in bytes to be a word. -/
inductive Alike : Ty → Ty → Prop where
  | scalars {source target : Ty} (isScalar : source.isScalar = true) (scalarToo : target.isScalar = true) :
      Alike source target
  | vectors {source target : Ty} {width : UInt32} (isScalar : source.isScalar = true)
      (scalarToo : target.isScalar = true) (some : 0 < width) (few : 4 * width.toNat < UInt32.size) :
      Alike (.vector source width) (.vector target width)

theorem plain_of_not_scalar {ty : Ty} (composite : ty.component.isScalar = false) : ty.isFloat = false ∧
    ty.isSigned = false ∧ ty.isUnsigned = false ∧ ty.isInteger = false ∧ ty.isBool = false := by
  simp only [isSigned, isUnsigned, isFloat, isInteger, isBool]
  cases is : ty.component <;> first | exact ⟨rfl, rfl, rfl, rfl, rfl⟩ | (rw [is] at composite; cases composite)

theorem ofScalar?_of_composite (composite : source.isScalar = false ∨ target.isScalar = false) :
    ofScalar? source target = none := by
  unfold ofScalar?
  split <;> first | rfl | simp [isScalar] at composite

theorem deepestElement_of_component {ty : Ty} (scalar : ty.component.isScalar = true) :
    ty.deepestElement = ty.component := by
  cases ty <;> try rfl
  case vector elem width => cases elem <;> cases scalar <;> rfl
  all_goals cases scalar

theorem conversion_eq (source target : Ty) : (conversion source target).toOption = ofComponent? source target := by
  cases scalar : source.component.isScalar with
  | false =>
    simp [conversion, ofComponent?, plain_of_not_scalar scalar, ofScalar?_of_composite (.inl scalar)]
    rfl
  | true =>
    cases scalarToo : target.component.isScalar with
    | false =>
      obtain ⟨noFloat, noSigned, noUnsigned, noInteger, noBool⟩ := plain_of_not_scalar scalarToo
      cases isBool : source.isBool with
      | false =>
        simp [conversion, ofComponent?, *, ofScalar?_of_composite (.inr scalarToo)]
        rfl
      | true =>
        have before : source.component = .bool := by simpa [Ty.isBool] using isBool
        simp [conversion, ofComponent?, *]
        cases target.deepestElement <;> rfl
    | true =>
      have deepest := deepestElement_of_component scalarToo
      cases before : source.component <;> rw [before] at scalar <;> cases scalar <;>
        cases after : target.component <;> rw [after] at scalarToo <;> cases scalarToo <;>
        simp [conversion, ofComponent?, deepest, isSigned, isUnsigned, isFloat, isInteger, isBool, before,
          after, isFloatScalar, isIntegerScalar, ofScalar?] <;> first | rfl | (split <;> rfl)

theorem Alike.ofComponent? (alike : Alike source target) :
    ofComponent? source target = ofScalar? source.component target.component := by
  cases alike with
  | scalars isScalar scalarToo =>
    cases source <;> cases isScalar <;> cases target <;> cases scalarToo <;> rfl
  | @vectors source target width isScalar scalarToo some few =>
    have halves : (4 : UInt32) * width ≠ 2 * width := by
      intro same
      have := congrArg UInt32.toNat same
      have positive : 0 < width.toNat := some
      simp [UInt32.toNat_mul, UInt32.size] at this few
      omega
    cases source <;> cases isScalar <;> cases target <;> cases scalarToo <;>
      simp [ofComponent?, isFloat, isInteger, isBool, component, byteSize?, ofScalar?,
        isFloatScalar, isIntegerScalar, deepestElement, halves, halves.symm]

end Selection

namespace Lower

open LowerState

/-- Ask for the ids of the type, of the result and of what an operation is applied to, and add the operation. -/
def perform (m : Module) (inst : Inst) (op : Opcode) (ty : Ty) (prepare : Lower (List Operand)) : Lower Unit := do
  let typeWord ← typeId m ty
  let id ← resultId m inst
  let operands ← prepare
  emit op (.id typeWord :: .id id :: operands)

/-- From the one state to the other the function grows by one instruction, which performs the operation and gives its
result the id of the value that is defined. -/
def GrowsBy (inst : Inst) (operation : Operation) (s t : LowerState) : Prop :=
  ∃ only id value, inst.result? = some value ∧ (Key.value value, id) ∈ t.bindings ∧
    operation.Emitted t none (some id) only ∧ t.code = s.code.map (·.extend [only])

/-- Where there is an instruction, the step asks for ids and adds the instruction, and nothing else can fail. Where
there is none, the step is a fault. -/
def Carried (m : Module) (inst : Inst) (ty : Ty) (operands : List Value) (step : Lower Unit) (s : LowerState) :
    Option Opcode → Prop
  | some op => step.run s = (perform m inst op ty (operandIds m operands)).run s ∧
      ∀ t, step.run s = .ok ((), t) → GrowsBy inst ⟨op, some ty, operands.map .operand⟩ s t
  | none => ∃ fault, step.run s = .error (.fault fault)

variable {m : Module} {inst : Inst} {ty : Ty} {s t : LowerState} {op : Opcode} {sources : List Source}
  {prepare : Lower (List Operand)}

theorem perform_run (sound : s.Sound) (computes : Computes op)
    (prepared : Gathers (fun _ => True) prepare fun operands s => List.Forall₂ (Carries s none) sources operands)
    {u : Unit} (ran : (perform m inst op ty prepare).run s = .ok (u, t)) :
    GrowsBy inst ⟨op, some ty, sources⟩ s t := by
  obtain ⟨typeWord, first, asked, ran⟩ := run_bind_eq_ok.mp ran
  obtain ⟨kept, -, sameFirst, -, typed⟩ := (gathers_typeId m ty).run sound asked
  obtain ⟨id, second, asked, ran⟩ := run_bind_eq_ok.mp ran
  obtain ⟨kept, growsSecond, sameSecond, -, named⟩ := (gathers_resultId m fun _ _ => trivial).run kept asked
  obtain ⟨operands, third, asked, ran⟩ := run_bind_eq_ok.mp ran
  obtain ⟨-, growsThird, sameThird, -, carried⟩ := prepared.run kept asked
  obtain ⟨code, only, inside, made, rfl⟩ := emit_run ran
  have grows : third.Grows { third with code := some (code.append only) } := { Grows.refl third with }
  obtain ⟨value, isResult, bound⟩ := named _ (growsThird.trans grows)
  refine ⟨only, id, value, isResult, bound, ?_, ?_⟩
  · exact @emitted_typed ⟨_, 0⟩ _ _ _ _ _ _ _ _ computes.1 computes.2.1 made
      (typed _ (growsSecond.trans (growsThird.trans grows))) (carried _ grows)
  · rw [← sameFirst, ← sameSecond, ← sameThird, inside]
    rfl

theorem carried_of_run {operands : List Value} {step : Lower Unit} {found : Except Fault Opcode} (sound : s.Sound)
    (computes : ∀ op, found = .ok op → Computes op)
    (chosen : ∀ op, found = .ok op → step.run s = (perform m inst op ty (operandIds m operands)).run s)
    (missing : ∀ fault, found = .error fault → step.run s = .error (.fault fault)) :
    Carried m inst ty operands step s found.toOption := by
  cases found with
  | error fault => exact ⟨fault, missing fault rfl⟩
  | ok op =>
    refine ⟨chosen op rfl, fun t ran => ?_⟩
    exact perform_run sound (computes op rfl) (gathers_operandIds none fun _ _ => trivial) (chosen op rfl ▸ ran)

/-- An operator on two values or on one is lowered to the instruction that works on the selecting type. If the
operator has none, it is a fault, except that sums, differences, exclusive disjunctions, shifts to the left,
complements and negated truth values are lowered to an instruction that does not work on the type. -/
theorem operators_select (sound : s.Sound) (result : resultTy m inst = .ok ty) :
    (∀ op lhs rhs lhsTy, m.typeIn s.pool lhs = .ok lhsTy →
      Carried m inst ty [lhs, rhs] (emitBinary m inst op lhs rhs) s
        ((Opcode.among? op.opcodes (op.selector ty lhsTy)).or op.fallback?)) ∧
    ∀ op value, Carried m inst ty [value] (emitUnary m inst op value) s
      ((Opcode.among? op.opcodes ty).or op.fallback?) := by
  refine ⟨fun op lhs rhs lhsTy typed => ?_, fun op value => ?_⟩
  · rw [← binary_eq]
    have start : (emitBinary m inst op lhs rhs).run s = _ :=
      (run_bind_ok (resultType_run result)).trans (run_bind_ok (askPool_of_ok typed))
    refine carried_of_run sound (fun _ => computes_binary) (fun opcode chosen => ?_) fun fault missing => ?_
    · rw [start, chosen]
      simp [check, perform, operandIds]
    · rw [start, missing]
      rfl
  · rw [← unary_eq]
    have start : (emitUnary m inst op value).run s = _ := run_bind_ok (resultType_run result)
    refine carried_of_run sound (fun _ => computes_unary) (fun opcode chosen => ?_) fun fault missing => ?_
    · rw [start, chosen]
      simp [check, perform, operandIds]
    · rw [start, missing]
      rfl

/-- A parameter of one type and what an instruction makes of it, a value of another type. -/
def between (source target : Ty) : Module where
  values := #[⟨source, none, .functionParam ⟨0⟩⟩, ⟨target, none, .result ⟨0⟩⟩]

def betweenInst (kind : Kind) : Inst := ⟨kind, [⟨1⟩], ⟨0⟩⟩

/-- The instructions that a step adds to an empty block. -/
def added (step : Lower Unit) : Option (List Opcode) :=
  (step.run cellStart).toOption.bind fun result => result.2.code.map (·.current.body.toList.map Instruction.op)

theorem sound_cellStart : cellStart.Sound := by
  constructor <;> simp [cellStart, bindings, Assembly.empty]

/-- An operator is applied to a value twice. -/
def withItself (op : BinaryOp) (ty : Ty) : Lower Unit :=
  emitBinary (between ty ty) (betweenInst (.binary op (.ssa ⟨0⟩) (.ssa ⟨0⟩))) op (.ssa ⟨0⟩) (.ssa ⟨0⟩)

theorem square_of_floats : added (withItself .multiply .f32) = some [.fMul] ∧
    Carried (between .f32 .f32) (betweenInst (.binary .multiply (.ssa ⟨0⟩) (.ssa ⟨0⟩))) .f32 [.ssa ⟨0⟩, .ssa ⟨0⟩]
      (withItself .multiply .f32) cellStart (some .fMul) :=
  ⟨by decide +kernel, (operators_select sound_cellStart rfl).1 .multiply _ _ .f32 rfl⟩

/-- The sum of truth values is lowered to a sum of floats. -/
theorem sum_of_truth_values : added (withItself .add .bool) = some [.fAdd] := by
  decide +kernel

/-- The ids of what a conversion is applied to. -/
def conversionIds (m : Module) (value : Value) (source target : Ty) : Conversion → Lower (List Operand)
  | .direct _ => operandIds m [value]
  | .fromNull _ => do
    let operands ← operandIds m [value]
    return operands ++ [.id (← nullId m source)]
  | .choose one zero => do
    let operands ← operandIds m [value]
    return operands ++ (← uniformIds m target [one, zero])

theorem gathers_conversionIds {value : Value} (c : Conversion) :
    Gathers (fun _ => True) (conversionIds m value source target c) fun operands s =>
      List.Forall₂ (Carries s none) (conversionBy source target value c).sources operands := by
  have operand := @gathers_operandIds (fun _ => True) m [value] none fun _ _ => trivial
  cases c with
  | direct op => exact operand
  | fromNull op =>
    refine operand.bind fun operands => (gathers_nullId m source).bind fun null => .pure fun s declared carried => ?_
    exact List.rel_append carried (.cons (.null declared) .nil)
  | choose one zero =>
    refine operand.bind fun operands => (gathers_uniformIds one zero).bind fun constants =>
      .pure fun s uniform carried => ?_
    exact List.rel_append carried uniform

/-- A value is converted as its component and that of the result say, and a conversion that there is none for is a
fault, after the ids are asked for. Between scalars and between vectors of one width, this is as the table has it. -/
theorem conversions_select {source target : Ty} {value : Value} (sound : s.Sound)
    (result : resultTy m inst = .ok target)
    (typed : m.typeIn s.pool value = .ok source) :
    (∀ c, ofComponent? source target = some c →
      (emitConvert m inst value).run s =
        (perform m inst (conversionBy source target value c).op target (conversionIds m value source target c)).run s ∧
      ∀ t, (emitConvert m inst value).run s = .ok ((), t) → GrowsBy inst (conversionBy source target value c) s t) ∧
    (ofComponent? source target = none → ∃ fault, (emitConvert m inst value).run s = (do
      let _ ← typeId m target
      let _ ← resultId m inst
      let _ ← valueId m value
      fail fault : Lower Unit).run s) ∧
    (Alike source target →
      ofComponent? source target = ofScalar? source.component target.component) := by
  have start : (emitConvert m inst value).run s = _ :=
    (run_bind_ok (resultType_run result)).trans (run_bind_ok (askPool_of_ok typed))
  refine ⟨fun c chosen => ?_, fun missing => ?_, Alike.ofComponent?⟩
  · have found := Module.ok_of_mem_toOption ((conversion_eq ..).trans chosen)
    have runs : (emitConvert m inst value).run s = (perform m inst (conversionBy source target value c).op target
        (conversionIds m value source target c)).run s := by
      rw [start, found]
      cases c with
      | choose => cases target <;> simp [check, perform, conversionIds, operandIds, conversionBy, uniformIds, valueId]
      | _ => simp [check, perform, conversionIds, operandIds, conversionBy]
    refine ⟨runs, fun t ran => ?_⟩
    have grown := perform_run sound ?_ (gathers_conversionIds c) (runs ▸ ran)
    · cases c <;> exact grown
    cases c with
    | direct op => exact computes_conversion (.inl found)
    | fromNull op => exact computes_conversion (.inr found)
    | choose => exact show Computes .select by decide
  · cases found : conversion source target with
    | ok c => cases (found ▸ conversion_eq source target : _ = _).trans missing
    | error fault =>
      refine ⟨fault, ?_⟩
      rw [start, found]
      rfl

/-- Converting a vector of floats. -/
def convertFloats (target : Ty) : Lower Unit :=
  emitConvert (between (.vector .f32 2) target) (betweenInst (.convert (.ssa ⟨0⟩))) (.ssa ⟨0⟩)

theorem floats_become_integers : added (convertFloats (.vector .i32 2)) = some [.convertFToS] ∧
    Alike (.vector .f32 2) (.vector .i32 2) ∧
    ∀ t, (convertFloats (.vector .i32 2)).run cellStart = .ok ((), t) → GrowsBy (betweenInst (.convert (.ssa ⟨0⟩)))
      ⟨.convertFToS, some (.vector .i32 2), [.operand (.ssa ⟨0⟩)]⟩ cellStart t := by
  have selected := @conversions_select (between (.vector .f32 2) (.vector .i32 2)) (betweenInst (.convert (.ssa ⟨0⟩)))
    cellStart (.vector .f32 2) (.vector .i32 2) (.ssa ⟨0⟩) sound_cellStart rfl rfl
  have alike : Alike (.vector .f32 2) (.vector .i32 2) := .vectors rfl rfl (by decide) (by decide)
  exact ⟨by decide +kernel, alike, (selected.1 _ (selected.2.2 alike)).2⟩

/-- A vector of floats is converted to one integer, and a truth value to a matrix, by choosing between two floats. -/
theorem shapes_ignored : added (convertFloats .i32) = some [.convertFToS] ∧
    added (emitConvert (between .bool (.matrix .f32 2 2)) (betweenInst (.convert (.ssa ⟨0⟩))) (.ssa ⟨0⟩)) =
      some [.select] := by
  decide +kernel

end Lower
end Shader
