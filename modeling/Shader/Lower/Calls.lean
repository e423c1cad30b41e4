import Shader.Lower.Expressions

/-!
Calls of library functions, of functions of the target and of functions of the module.
-/
namespace Shader.Lower

open Binary

/-- The name of the extended instruction set. -/
def extendedSet : String := "GLSL.std.450"

/-- The id of the extended instruction set, imported when it is first used. -/
def extendedSetId : Lower Word :=
  remember .imports extendedSet do
    let id ← fresh
    add .imports .extInstImport [.id id, .text extendedSet]
    return id

/-- Type and id of the value an instruction defines, if it defines one. -/
def resultOperands (m : Module) (inst : Inst) : Lower (List Operand) :=
  match inst.result? with
  | none => return []
  | some result => do
    let typeWord ← typeId m (← check (m.value result)).ty
    let id ← valueId m (.ssa result)
    return [.id typeWord, .id id]

/-- The scope of the invocations that run together in a subgroup. -/
def subgroupScope : Lower Operand := return .scope (← wordConstantId Scope.subgroup)

/-- Operands between the result and the arguments. A ballot without an argument is over all invocations. -/
def builtinOperands (m : Module) (fn : BuiltinFn) (args : List Value) : Lower (List Operand) :=
  match fn with
  | .subgroupBallot => do
    let scope ← subgroupScope
    if args.isEmpty then
      let always ← intern (.scalar (.bool true))
      return [scope, .id (← constantId m always)]
    else
      return [scope]
  | .subgroupBroadcast => return [← subgroupScope]
  | _ => return []

/-- A barrier for all invocations of a workgroup, over the given memory. -/
def emitBarrier (memory : Word) : Lower Unit := do
  let scope ← wordConstantId Scope.workgroup
  let semantics ← wordConstantId (Semantics.acquireRelease ||| memory)
  emit .controlBarrier [.scope scope, .scope scope, .semantics semantics]

/-- Call a library function in a given form. -/
def emitForm (m : Module) (inst : Inst) (fn : BuiltinFn) (args : List Value) :
    Selection.Form → Lower Unit
  | .barrier memory => emitBarrier memory
  | .instruction op => do
    let result ← resultOperands m inst
    let fixed ← builtinOperands m fn args
    let argIds ← operandIds m args
    emit op (result ++ fixed ++ argIds)
  | .extended code => do
    let result ← resultOperands m inst
    let set ← extendedSetId
    let fixed ← builtinOperands m fn args
    let argIds ← operandIds m args
    emit .extInst (result ++ [.id set, .extInst code] ++ fixed ++ argIds)

/-- The argument a call of a library function stands for, if it is the identity. -/
def identityArgument? (m : Module) (inst : Inst) (fn : BuiltinFn) (ty : Ty) (args : List Value) :
    Lower (Option (ValueId × Value)) :=
  match args with
  | [] => return none
  | arg :: _ => do
    let argType ← typeOf m arg
    match inst.result? with
    | some result => return if Selection.isIdentity fn ty argType then some (result, arg) else none
    | none => return none

/-- Call a library function. -/
def emitBuiltin (m : Module) (inst : Inst) (fn : BuiltinFn) (args : List Value) : Lower Unit := do
  let ty ← match inst.result? with
    | some result => do pure (← check (m.value result)).ty
    | none => pure .void
  match ← identityArgument? m inst fn ty args with
  | some (result, arg) => aliasTo m result arg
  | none =>
    match Selection.builtin? fn ty with
    | none => fail (.builtinFunction fn)
    | some form => do
      if let some capability := Selection.builtinCapability? fn then
        require capability
      emitForm m inst fn args form

/-- Call a function of the target. -/
def emitTargetCall (m : Module) (inst : Inst) (fn : TargetFn) (args : List Value) : Lower Unit := do
  match Selection.target? fn with
  | none => fail .undefinedTargetFunction
  | some op => do
    if let some extension := Selection.targetExtension? fn then
      requireExtension extension
    (Selection.targetCapabilities fn).forM require
    let result ← resultOperands m inst
    let argIds ← operandIds m args
    emit op (result ++ argIds)

/-- Call a function of the module. A call without a result still gets an id. -/
def emitCall (m : Module) (inst : Inst) (target : FuncId) (args : List Value) : Lower Unit := do
  let (typeWord, id) ← match inst.result? with
    | some _ => do
      let typeWord ← resultTypeId m inst
      let id ← resultId m inst
      pure (typeWord, id)
    | none => do
      let typeWord ← typeId m .void
      let id ← fresh
      pure (typeWord, id)
  let function ← functionId target
  let argIds ← operandIds m args
  emit .functionCall ([.id typeWord, .id id, .id function] ++ argIds)

end Shader.Lower
