import Shader.Proofs.Lowering.Operands

/-!
What an instruction amounts to in operations of the target, if it neither branches nor owns blocks.

An instruction passes a value on, allocates a variable, or performs one or two operations. `recipe` says
which, by looking at types and constants only; no id is part of it. `Realises` says that code carries a
recipe out with the ids that a lowering has given to what the recipe mentions.
-/
namespace Shader.Lower

open Binary LowerState Selection

/-- What an operation is applied to. -/
inductive Source where
  /-- An operand of the instruction. -/
  | operand (value : Value)
  | word (word : Word)
  /-- The constant of a type whose components are all the given scalar. -/
  | uniform (ty : Ty) (scalar : Scalar)
  | null (ty : Ty)
  | function (id : FuncId)
  /-- The extended instruction set. -/
  | library
  /-- The result of the operation before this one. -/
  | previous
  deriving DecidableEq

/-- An operation of the target. `ty` is the type of its result, if it has one. -/
structure Operation where
  op : Opcode
  ty : Option Ty
  sources : List Source
  deriving DecidableEq

/-- What an instruction amounts to. The result is that of the last operation. -/
inductive Recipe where
  | same (value : Value)
  | allocate (initializer : Option Value)
  | perform (first : Option Operation) (last : Operation)
  deriving DecidableEq

/-- The number an index is, if it is known. -/
def knownIn (pool : Pool) : Value → Except Fault (Option Word)
  | .constant id => pool.word? id
  | .literal word => .ok (some word)
  | .ssa _ => .ok none

/-- Indexing into `object`; `ty` is the type reached through `path`. -/
def extraction (m : Module) (pool : Pool) (result : Ty) (object : Value) (ty : Ty) (path : List Word) :
    List Value → Except Fault Recipe
  | [] => .ok (.perform none ⟨.compositeExtract, some result, .operand object :: path.map .word⟩)
  | index :: indices => do
    match ← knownIn pool index with
    | some word => extraction m pool result object (← m.elementType word ty) (path ++ [word]) indices
    | none =>
      match ty with
      | .vector _ _ =>
        if path.isEmpty then
          .ok (.perform none ⟨.vectorExtractDynamic, some result, [.operand object, .operand index]⟩)
        else
          .ok (.perform (some ⟨.compositeExtract, some ty, .operand object :: path.map .word⟩)
            ⟨.vectorExtractDynamic, some result, [.previous, .operand index]⟩)
      | _ => .error (.dynamicIndex ty)

/-- Pointing at one component of the vector a pointer points at. -/
def elementAccess (m : Module) (pool : Pool) (vector index : Value) : Except Fault Operation := do
  match ← m.typeIn pool vector with
  | .pointer space (.vector elem _) access =>
    .ok ⟨.accessChain, some (.pointer space elem access), [.operand vector, .operand index]⟩
  | .pointer _ store _ => .error (.elementOfNonVector store)
  | ty => .error (.elementThroughNonPointer ty)

/-- Converting a value of type `source` to type `target`. -/
def conversionBy (source target : Ty) (value : Value) : Conversion → Operation
  | .direct op => ⟨op, some target, [.operand value]⟩
  | .fromNull op => ⟨op, some target, [.operand value, .null source]⟩
  | .choose one zero =>
    ⟨.select, some target, [.operand value, .uniform target one, .uniform target zero]⟩

/-- What a library function is applied to before its arguments. -/
def fixedSources (fn : BuiltinFn) (args : List Value) : List Source :=
  match fn with
  | .subgroupBallot =>
    .uniform .u32 (.u32 Scope.subgroup) :: if args.isEmpty then [.uniform .bool (.bool true)] else []
  | .subgroupBroadcast => [.uniform .u32 (.u32 Scope.subgroup)]
  | _ => []

/-- Calling a library function in a given form. -/
def callBy (ty : Option Ty) (fn : BuiltinFn) (args : List Value) : Form → Operation
  | .barrier memory =>
    ⟨.controlBarrier, none, [.uniform .u32 (.u32 Scope.workgroup), .uniform .u32 (.u32 Scope.workgroup),
        .uniform .u32 (.u32 (Semantics.acquireRelease ||| memory))]⟩
  | .instruction op => ⟨op, ty, fixedSources fn args ++ args.map .operand⟩
  | .extended code => ⟨.extInst, ty, .library :: .word code :: (fixedSources fn args ++ args.map .operand)⟩

/-- The type of the value an instruction defines, if it defines one. -/
def resultTy? (m : Module) (inst : Inst) : Except Fault (Option Ty) :=
  match inst.result? with
  | some result => do return some (← m.value result).ty
  | none => .ok none

/-- The argument that a call of a library function is, if it is one. -/
def identityOf (m : Module) (pool : Pool) (fn : BuiltinFn) (ty : Option Ty) : List Value → Except Fault (Option Value)
  | [] => .ok none
  | arg :: _ => do
    let argType ← m.typeIn pool arg
    match ty with
    | some ty => return if isIdentity fn ty argType then some arg else none
    | none => return none

/-- What an instruction amounts to, when its constants are those of `pool`. -/
def recipe (m : Module) (pool : Pool) (inst : Inst) : Except Fault Recipe :=
  match inst.kind with
  | .access object indices => do
    let ty ← resultTy m inst
    if ty.pointee?.isSome then
      return .perform none ⟨.accessChain, some ty, .operand object :: indices.map .operand⟩
    else extraction m pool ty object (← m.typeIn pool object) [] indices
  | .binary op lhs rhs => do
    let ty ← resultTy m inst
    let opcode ← binary op ty (← m.typeIn pool lhs)
    return .perform none ⟨opcode, some ty, [.operand lhs, .operand rhs]⟩
  | .unary op value => do
    let ty ← resultTy m inst
    return .perform none ⟨← unary op ty, some ty, [.operand value]⟩
  | .bitcast value => do
    let ty ← resultTy m inst
    if ty = (← m.typeIn pool value) then return .same value
    else return .perform none ⟨.bitcast, some ty, [.operand value]⟩
  | .convert value => do
    let target ← resultTy m inst
    let source ← m.typeIn pool value
    return .perform none (conversionBy source target value (← conversion source target))
  | .construct [arg] => do
    let ty ← resultTy m inst
    if (← m.typeIn pool arg) = ty then return .same arg
    else return .perform none ⟨.compositeConstruct, some ty, [.operand arg]⟩
  | .construct args => do
    return .perform none ⟨.compositeConstruct, some (← resultTy m inst), args.map .operand⟩
  | .swizzle object indices => do
    return .perform none ⟨.vectorShuffle, some (← resultTy m inst),
        .operand object :: .operand object :: indices.map .word⟩
  | .load source => do return .perform none ⟨.load, some (← resultTy m inst), [.operand source]⟩
  | .store target value => .ok (.perform none ⟨.store, none, [.operand target, .operand value]⟩)
  | .loadElement source index => do
    let pointer ← elementAccess m pool source index
    return .perform (some pointer) ⟨.load, some (← resultTy m inst), [.previous]⟩
  | .storeElement target index value => do
    return .perform (some (← elementAccess m pool target index)) ⟨.store, none, [.previous, .operand value]⟩
  | .var declaration => do
    match ← resultTy m inst with
    | .pointer .functionLocal _ _ => return .allocate declaration.initializer
    | _ => return .allocate none
  | .bind value => .ok (.same value)
  | .builtin fn args => do
    let ty ← resultTy? m inst
    match ← identityOf m pool fn ty args with
    | some arg => return .same arg
    | none =>
      match builtin? fn (ty.getD .void) with
      | some form => return .perform none (callBy ty fn args form)
      | none => throw (.builtinFunction fn)
  | .targetCall fn args =>
    match target? fn with
    | some op => do return .perform none ⟨op, ← resultTy? m inst, args.map .operand⟩
    | none => throw .undefinedTargetFunction
  | .call target args => do
    let ty ← resultTy? m inst
    return .perform none ⟨.functionCall, some (ty.getD .void), .function target :: args.map .operand⟩
  | kind => throw (.noResult kind.name)

end Shader.Lower

namespace Shader

open Lower Binary

/-- Whether a library function is a barrier. -/
def BuiltinFn.isBarrier : BuiltinFn → Bool
  | .storageBarrier | .textureBarrier | .workgroupBarrier => true
  | _ => false

/-- Whether the lowering of an instruction of this kind defines so many results. A call may leave its
result out, and a construct may have any number of results. -/
def Kind.admits (kind : Kind) (count : Nat) : Bool :=
  match kind with
  | .conditional _ | .loop _ | .switch _ => true
  | .call _ _ => count ≤ 1
  | .store _ _ | .storeElement _ _ _ => count = 0
  | .builtin fn _ => count = if fn.isBarrier then 0 else 1
  | .targetCall fn _ => (Selection.target? fn).all fun op => count = if op.grammar.result then 1 else 0
  | kind => count = if kind.isTerminator then 0 else 1

/-- The instruction defines a value exactly when its lowering does. -/
def Inst.Shaped (inst : Inst) : Prop := inst.kind.admits inst.results.length = true

instance : DecidablePred Inst.Shaped := fun inst => inferInstanceAs (Decidable (inst.kind.admits _ = true))

/-- Neither a label, a phi, a variable, a merge declaration nor the end of a block. -/
def Binary.Opcode.isOrdinary : Opcode → Bool
  | .label | .phi | .variableDecl | .loopMerge | .selectionMerge => false
  | op => !op.isTerminator

end Shader

namespace Shader.Lower

open Binary LowerState

/-- The constant is the one of its type whose components are all the given scalar. -/
def Uniform (pool : Pool) (ty : Ty) (scalar : Scalar) (constant : ConstId) : Prop :=
  match ty with
  | .vector _ _ =>
    ∃ element count, pool.get constant = .ok (.splat ty element count) ∧ pool.get element = .ok (.scalar scalar)
  | _ => pool.get constant = .ok (.scalar scalar)

/-- The extended instruction set is imported with the given id. -/
def HasLibrary (id : Word) (s : LowerState) : Prop :=
  (extendedSet, id) ∈ s.imports.entries ∧ id ∈ results s.out.imports.toList

/-- The operand of an instruction stands for the source. -/
inductive Carries (s : LowerState) (previous : Option Word) : Source → Operand → Prop where
  | operand {value : Value} {id : Word} (resolved : Resolves value id s) : Carries s previous (.operand value) (.id id)
  | word (word : Word) : Carries s previous (.word word) (.literal word)
  | number (word : Word) : Carries s previous (.word word) (.extInst word)
  | uniform {ty : Ty} {scalar : Scalar} {id : Word} {constant : ConstId} {operand : Operand}
      (shown : operand = .id id ∨ operand = .scope id ∨ operand = .semantics id)
      (declared : HasConstant constant id s) (same : Uniform s.pool ty scalar constant) :
      Carries s previous (.uniform ty scalar) operand
  | null {ty : Ty} {id : Word} (declared : HasNull ty id s) : Carries s previous (.null ty) (.id id)
  | function {function : FuncId} {id : Word} (bound : (Key.function function, id) ∈ s.bindings) :
      Carries s previous (.function function) (.id id)
  | library {id : Word} (imported : HasLibrary id s) : Carries s previous .library (.id id)
  | previous {id : Word} (given : previous = some id) : Carries s previous .previous (.id id)

/-- The instruction performs the operation and gives its result the id `result`. -/
structure Operation.Emitted (s : LowerState) (previous : Option Word) (operation : Operation)
    (result : Option Word) (inst : Instruction) : Prop where
  op : inst.op = operation.op
  result : inst.result = result
  ty : Option.Rel (fun id ty => HasType ty id s) inst.resultType operation.ty
  operands : ∃ operands, List.Forall₂ (Carries s previous) operation.sources operands ∧ inst.operands =
      Instruction.classify operation.op.grammar.rest operation.op.grammar.fixed operands

/-- The id that an operation gives to its result is the one of the value that the instruction defines. -/
def Delivers (L : Ledger) (inst : Inst) (result : Option Word) : Prop :=
  match inst.results with
  | [] => ∀ id, result = some id → id ∈ L.loose
  | value :: _ => ∃ id, result = some id ∧ (Key.value value, id) ∈ L.state.bindings

/-- The code carries out the recipe of an instruction. A value that is passed on is one that shares the
id, or a copy. -/
def Realises (L : Ledger) (inst : Inst) : Recipe → List Instruction → Prop
  | .same source, code => ∃ value id, inst.results = [value] ∧ Resolves source id L.state ∧
      ((code = [] ∧ (Key.value value, id) ∈ L.state.bindings) ∨
        ∃ ty copy, code = [⟨.copyObject, some ty, some copy, [.id id]⟩] ∧ (Key.value value, copy) ∈ L.state.bindings)
  | .allocate none, code => code = []
  | .allocate (some initializer), code => ∃ value pointer id, inst.results = [value] ∧
      (Key.value value, pointer) ∈ L.state.bindings ∧ Resolves initializer id L.state ∧
      code = [⟨.store, none, none, [.id pointer, .id id]⟩]
  | .perform none last, code => ∃ result only, code = [only] ∧
      last.Emitted L.state none result only ∧ Delivers L inst result
  | .perform (some first) last, code => ∃ temporary result earlier later, code = [earlier, later] ∧
      temporary ∈ L.loose ∧ first.Emitted L.state none (some temporary) earlier ∧
      last.Emitted L.state (some temporary) result later ∧ Delivers L inst result

/-- The value shares the id of what its instruction, one of those that are `reached`, passes on. -/
def Passed (m : Module) (reached : InstId → Prop) (L : Ledger) (value : ValueId) (id : Word) : Prop :=
  ∃ at_ inst source, reached at_ ∧ m.inst at_ = .ok inst ∧ inst.result? = some value ∧
    recipe m L.state.pool inst = .ok (.same source) ∧ Resolves source id L.state

end Shader.Lower
