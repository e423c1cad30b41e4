import Shader.Lower.Selection
import Shader.Lower.ValueIds

/-!
Instructions that compute a value or touch memory.
-/
namespace Shader.Lower

open Binary

/-- Let the value an instruction defines stand for another one. -/
def passThrough (m : Module) (inst : Inst) (source : Value) : Lower Unit := do
  aliasTo m (← resultOf inst) source

/-- The ids of operands, in order. -/
def operandIds (m : Module) (values : List Value) : Lower (List Operand) :=
  values.mapM fun value => return .id (← valueId m value)

/-- The number an index is, if it is known: a bare word or an integer constant. -/
def knownIndex? : Value → Lower (Option Word)
  | .constant id => askPool (·.word? id)
  | .literal word => return some word
  | .ssa _ => return none

/-- Index into a value. Known indices are gathered into one extraction; an index that is only known when
the shader runs is the last one and goes into a vector. `ty` is the type reached through `path`. -/
def extract (m : Module) (typeWord id source : Word) (ty : Ty) (path : List Word) :
    List Value → Lower Unit
  | [] => emit .compositeExtract ([.id typeWord, .id id, .id source] ++ path.map .literal)
  | index :: indices => do
    match ← knownIndex? index with
    | some word => do
      let elem ← check (m.elementType word ty)
      extract m typeWord id source elem (path ++ [word]) indices
    | none =>
      match ty with
      | .vector _ _ => do
        let vector ← if path.isEmpty then pure source else do
          let vector ← fresh
          let vectorType ← typeId m ty
          emit .compositeExtract ([.id vectorType, .id vector, .id source] ++ path.map .literal)
          pure vector
        let indexId ← valueId m index
        emit .vectorExtractDynamic [.id typeWord, .id id, .id vector, .id indexId]
      | _ => fail (.dynamicIndex ty)

/-- Index into a pointer when the result is a pointer, and into a value otherwise. -/
def emitAccess (m : Module) (inst : Inst) (object : Value) (indices : List Value) : Lower Unit := do
  let ty ← resultType m inst
  let typeWord ← typeId m ty
  let id ← resultId m inst
  let source ← valueId m object
  if ty.pointee?.isSome then
    let indexIds ← operandIds m indices
    emit .accessChain ([.id typeWord, .id id, .id source] ++ indexIds)
  else
    extract m typeWord id source (← typeOf m object) [] indices

def emitBinary (m : Module) (inst : Inst) (op : BinaryOp) (lhs rhs : Value) : Lower Unit := do
  let ty ← resultType m inst
  let lhsType ← typeOf m lhs
  let opcode ← check (Selection.binary op ty lhsType)
  let typeWord ← typeId m ty
  let id ← resultId m inst
  let lhsId ← valueId m lhs
  let rhsId ← valueId m rhs
  emit opcode [.id typeWord, .id id, .id lhsId, .id rhsId]

def emitUnary (m : Module) (inst : Inst) (op : UnaryOp) (value : Value) : Lower Unit := do
  let ty ← resultType m inst
  let opcode ← check (Selection.unary op ty)
  let typeWord ← typeId m ty
  let id ← resultId m inst
  let operand ← valueId m value
  emit opcode [.id typeWord, .id id, .id operand]

/-- A cast to the type a value has is the value. -/
def emitBitcast (m : Module) (inst : Inst) (value : Value) : Lower Unit := do
  let ty ← resultType m inst
  if ty = (← typeOf m value) then
    passThrough m inst value
  else
    let typeWord ← typeId m ty
    let id ← resultId m inst
    let operand ← valueId m value
    emit .bitcast [.id typeWord, .id id, .id operand]

def emitConvert (m : Module) (inst : Inst) (value : Value) : Lower Unit := do
  let target ← resultType m inst
  let source ← typeOf m value
  let typeWord ← typeId m target
  let id ← resultId m inst
  let operand ← valueId m value
  match ← check (Selection.conversion source target) with
  | .direct op => emit op [.id typeWord, .id id, .id operand]
  | .fromNull op => do
    let null ← nullId m source
    emit op [.id typeWord, .id id, .id operand, .id null]
  | .choose one zero => do
    let oneScalar ← intern (.scalar one)
    let zeroScalar ← intern (.scalar zero)
    let (oneConstant, zeroConstant) ← match target with
      | .vector _ width => do
        let oneVector ← intern (.splat target oneScalar width)
        let zeroVector ← intern (.splat target zeroScalar width)
        pure (oneVector, zeroVector)
      | _ => pure (oneScalar, zeroScalar)
    let oneId ← constantId m oneConstant
    let zeroId ← constantId m zeroConstant
    emit .select [.id typeWord, .id id, .id operand, .id oneId, .id zeroId]

/-- Building a value from one value of the same type is that value. -/
def emitConstruct (m : Module) (inst : Inst) (args : List Value) : Lower Unit := do
  let ty ← resultType m inst
  let same? ← match args with
    | [arg] => do pure (if (← typeOf m arg) = ty then some arg else none)
    | _ => pure none
  match same? with
  | some arg => passThrough m inst arg
  | none => do
    let typeWord ← typeId m ty
    let id ← resultId m inst
    let argIds ← operandIds m args
    emit .compositeConstruct ([.id typeWord, .id id] ++ argIds)

def emitSwizzle (m : Module) (inst : Inst) (object : Value) (indices : List UInt32) : Lower Unit := do
  let typeWord ← resultTypeId m inst
  let id ← resultId m inst
  let source ← valueId m object
  emit .vectorShuffle ([.id typeWord, .id id, .id source, .id source] ++ indices.map .literal)

def emitLoad (m : Module) (inst : Inst) (source : Value) : Lower Unit := do
  let typeWord ← resultTypeId m inst
  let id ← resultId m inst
  let pointer ← valueId m source
  emit .load [.id typeWord, .id id, .id pointer]

def emitStore (m : Module) (target value : Value) : Lower Unit := do
  let pointer ← valueId m target
  let stored ← valueId m value
  emit .store [.id pointer, .id stored]

/-- A pointer to one component of the vector a pointer points at. -/
def elementPointer (m : Module) (vector index : Value) : Lower Word := do
  match ← typeOf m vector with
  | .pointer space (.vector elem _) access => do
    let typeWord ← typeId m (.pointer space elem access)
    let id ← fresh
    let vectorId ← valueId m vector
    let indexId ← valueId m index
    emit .accessChain [.id typeWord, .id id, .id vectorId, .id indexId]
    return id
  | .pointer _ store _ => fail (.elementOfNonVector store)
  | ty => fail (.elementThroughNonPointer ty)

def emitLoadElement (m : Module) (inst : Inst) (source index : Value) : Lower Unit := do
  let pointer ← elementPointer m source index
  let typeWord ← resultTypeId m inst
  let id ← resultId m inst
  emit .load [.id typeWord, .id id, .id pointer]

def emitStoreElement (m : Module) (target index value : Value) : Lower Unit := do
  let pointer ← elementPointer m target index
  let stored ← valueId m value
  emit .store [.id pointer, .id stored]

end Shader.Lower
