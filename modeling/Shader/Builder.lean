import Shader.Module

/-!
Building a module step by step.

Instructions are added to the selected block, which must not have been ended. The values an
instruction defines get their types and origins, and branches are registered with the construct or the
block they go to. A step that is refused keeps what it had done before it found out, so a builder is
still usable after it.
-/
namespace Shader

/-- The constructs a branch can be out of. -/
inductive ConstructKind where
  | conditional
  | loop
  | switch
  deriving DecidableEq

def ConstructKind.text : ConstructKind → String
  | .conditional => "if"
  | .loop => "loop"
  | .switch => "switch"

/-- Why a step is refused. -/
inductive BuildError where
  | blockEnded (block : BlockId)
  | notPointer (ty : Ty)
  | notVector (ty : Ty)
  | wrongConstruct (expected : ConstructKind) (inst : InstId)
  deriving DecidableEq

def BuildError.message : BuildError → String
  | .blockEnded block => s!"block {block.text} already terminated"
  | .notPointer ty => s!"expected a pointer, found {ty.describe}"
  | .notVector ty => s!"expected a vector, found {ty.describe}"
  | .wrongConstruct expected inst => s!"{inst.text} is not a {expected.text} instruction"

/-- How a step can fail: it is refused, it reads a module that is not well formed, or it has to change
an entry that a table does not have. Building cannot go on after the last two. -/
inductive BuildFailure where
  | refused (error : BuildError)
  | fault (cause : Fault)
  | outOfRange
  deriving DecidableEq

/-- A module under construction and the block that instructions are added to. -/
structure Builder where
  module : Module
  current : BlockId
  deriving DecidableEq

/-- Building on a module starts in its root block. -/
def Builder.start (m : Module) : Builder := ⟨m, .root⟩

/-- A building step. What a failing step has changed stays changed. -/
abbrev Build := ExceptT BuildFailure (StateM Builder)

namespace Build

/-- The blocks and results of a new conditional. -/
structure ConditionalHandle where
  inst : InstId
  whenTrue : BlockId
  whenFalse : BlockId
  results : List Value

/-- The blocks and results of a new loop. -/
structure LoopHandle where
  inst : InstId
  body : BlockId
  continuing : BlockId
  results : List Value

/-- A new switch and its results. -/
structure SwitchHandle where
  inst : InstId
  results : List Value

/-- Refuse a step. -/
def refuse {α : Type} (error : BuildError) : Build α := throw (.refused error)

/-- Read from the module. -/
def ask {α : Type} (read : Module → Except Fault α) : Build α := do
  match read (← get).module with
  | .ok value => return value
  | .error fault => throw (.fault fault)

/-- Change the module. -/
def change (update : Module → Module) : Build Unit :=
  modify fun builder => { builder with module := update builder.module }

/-- The block that instructions are added to. -/
def currentBlock : Build BlockId := return (← get).current

/-- Select the block that instructions are added to. -/
def switchToBlock (block : BlockId) : Build Unit :=
  modify fun builder => { builder with current := block }

/-- Select the root block. -/
def switchToRoot : Build Unit := switchToBlock .root

/-- Add an empty block. -/
def newBlock (parent : Option InstId) : Build BlockId := do
  let id := ⟨(← get).module.blocks.size⟩
  change fun m => { m with blocks := m.blocks.push { parent } }
  return id

/-- Add a value without a name. -/
def newValue (ty : Ty) (origin : Origin) : Build ValueId := do
  let id := ⟨(← get).module.values.size⟩
  change fun m => { m with values := m.values.push ⟨ty, none, origin⟩ }
  return id

/-- The instruction that will be added next. -/
def nextInst : Build InstId := return ⟨(← get).module.insts.size⟩

/-- Change a block that must exist. -/
def changeBlock (id : BlockId) (update : Block → Block) : Build Unit := do
  if id.index < (← get).module.blocks.size then
    change fun m => { m with blocks := m.blocks.modify id.index update }
  else throw .outOfRange

/-- Change an instruction that must exist, or refuse the step if it is of the wrong kind. -/
def changeKind (id : InstId) (expected : ConstructKind) (update : Kind → Option Kind) : Build Unit := do
  match (← get).module.insts[id.index]? with
  | none => throw .outOfRange
  | some inst =>
    match update inst.kind with
    | none => refuse (.wrongConstruct expected id)
    | some kind =>
      change fun m => { m with insts := m.insts.modify id.index fun inst => { inst with kind } }

/-- Add an instruction with results of the given types to the current block. -/
def push (kind : Kind) (types : List Ty) : Build (InstId × List Value) := do
  let block ← currentBlock
  if (← ask (·.terminator? block)).isSome then
    refuse (.blockEnded block)
  let id ← nextInst
  let results ← types.mapM fun ty => newValue ty (.result id)
  change fun m => { m with insts := m.insts.push ⟨kind, results, block⟩ }
  changeBlock block fun b => { b with insts := b.insts ++ [id] }
  return (id, results.map .ssa)

/-- Add an instruction with one result. -/
def pushValue (kind : Kind) (ty : Ty) : Build Value := do
  let (_, results) ← push kind [ty]
  match results with
  | value :: _ => return value
  | [] => throw .outOfRange

/-- Add an instruction without a result. -/
def pushVoid (kind : Kind) : Build InstId := do
  let (id, _) ← push kind []
  return id

/-- Add a function and select its first block. -/
def function (name : String) (returnType : Ty) (stage : Stage) : Build FuncId := do
  let entry ← newBlock none
  let id := ⟨(← get).module.functions.size⟩
  change fun m => { m with functions := m.functions.push ⟨name, [], returnType, stage, none, entry⟩ }
  switchToBlock entry
  return id

/-- Change a function that must exist. -/
def changeFunction (id : FuncId) (update : Function → Function) : Build Unit := do
  if id.index < (← get).module.functions.size then
    change fun m => { m with functions := m.functions.modify id.index update }
  else throw .outOfRange

/-- Add a compute entry point. -/
def computeFunction (name : String) (size : UInt32 × UInt32 × UInt32) : Build FuncId := do
  let id ← function name .void .compute
  changeFunction id fun f => { f with workgroupSize := some size }
  return id

/-- Change a value that must exist. -/
def changeValue (id : ValueId) (update : ValueDef → ValueDef) : Build Unit := do
  if id.index < (← get).module.values.size then
    change fun m => { m with values := m.values.modify id.index update }
  else throw .outOfRange

/-- Add a parameter to a function. -/
def param (function : FuncId) (ty : Ty) (name : Option String) : Build Value := do
  let id ← newValue ty (.functionParam function)
  changeValue id fun v => { v with name }
  changeFunction function fun f => { f with params := f.params ++ [id] }
  return .ssa id

/-- Add a parameter to a block. -/
def blockParam (block : BlockId) (ty : Ty) : Build Value := do
  let id ← newValue ty (.blockParam block)
  changeBlock block fun b => { b with params := b.params ++ [id] }
  return .ssa id

/-- Add a struct definition and give its type. -/
def addStruct (definition : StructDef) : Build Ty := do
  let (id, m) := (← get).module.addStruct definition
  change fun _ => m
  return .struct id

/-- Name a value. Constants stay without a name. -/
def setName (value : Value) (name : String) : Build Unit :=
  match value with
  | .ssa id => changeValue id fun v => { v with name := some name }
  | _ => return ()

/-- Store a constant. -/
def internConstant (constant : Constant) : Build ConstId := do
  let (id, pool) := (← get).module.constants.insert constant
  change fun m => { m with constants := pool }
  return id

def constant (constant : Constant) : Build Value := return .constant (← internConstant constant)

def scalar (value : Scalar) : Build Value := constant (.scalar value)

def composite (ty : Ty) (elements : List ConstId) : Build Value := constant (.composite ty elements)

def splat (ty : Ty) (element : ConstId) (count : UInt32) : Build Value :=
  constant (.splat ty element count)

def binary (op : BinaryOp) (ty : Ty) (lhs rhs : Value) : Build Value := pushValue (.binary op lhs rhs) ty

def unary (op : UnaryOp) (ty : Ty) (value : Value) : Build Value := pushValue (.unary op value) ty

def bitcast (ty : Ty) (value : Value) : Build Value := pushValue (.bitcast value) ty

def convert (ty : Ty) (value : Value) : Build Value := pushValue (.convert value) ty

def construct (ty : Ty) (args : List Value) : Build Value := pushValue (.construct args) ty

def swizzle (ty : Ty) (object : Value) (indices : List UInt32) : Build Value :=
  pushValue (.swizzle object indices) ty

/-- Index into a composite, or into a pointer to one when `ty` is a pointer. -/
def access (ty : Ty) (object : Value) (indices : List Value) : Build Value :=
  pushValue (.access object indices) ty

/-- What a pointer operand points at. -/
def pointeeOf (pointer : Value) : Build Ty := do
  let ty ← ask (·.typeOf pointer)
  match ty.pointee? with
  | some store => return store
  | none => refuse (.notPointer ty)

def load (source : Value) : Build Value := do
  let ty ← pointeeOf source
  pushValue (.load source) ty

def store (target value : Value) : Build Unit := do
  let _ ← pushVoid (.store target value)

def loadElement (source index : Value) : Build Value := do
  match ← pointeeOf source with
  | .vector elem _ => pushValue (.loadElement source index) elem
  | ty => refuse (.notVector ty)

def storeElement (target index value : Value) : Build Unit := do
  let _ ← pushVoid (.storeElement target index value)

/-- Declare a variable; `ty` is the type of the pointer to it. -/
def var (ty : Ty) (declaration : Variable) : Build Value := do
  if ty.pointee?.isNone then
    refuse (.notPointer ty)
  pushValue (.var declaration) ty

def bind (value : Value) : Build Value := do
  let ty ← ask (·.typeOf value)
  pushValue (.bind value) ty

def builtin (ty : Ty) (fn : BuiltinFn) (args : List Value) : Build Value := pushValue (.builtin fn args) ty

def builtinVoid (fn : BuiltinFn) (args : List Value) : Build Unit := do
  let _ ← pushVoid (.builtin fn args)

def targetCall (ty : Ty) (fn : TargetFn) (args : List Value) : Build Value :=
  pushValue (.targetCall fn args) ty

def targetCallVoid (fn : TargetFn) (args : List Value) : Build Unit := do
  let _ ← pushVoid (.targetCall fn args)

def call (target : FuncId) (args : List Value) : Build Value := do
  let function ← ask (·.function target)
  pushValue (.call target args) function.returnType

def callVoid (target : FuncId) (args : List Value) : Build Unit := do
  let _ ← pushVoid (.call target args)

/-- Add a conditional with two empty blocks. -/
def conditional (condition : Value) (types : List Ty) : Build ConditionalHandle := do
  let owner ← nextInst
  let whenTrue ← newBlock (some owner)
  let whenFalse ← newBlock (some owner)
  let (inst, results) ← push (.conditional ⟨condition, whenTrue, whenFalse, []⟩) types
  return ⟨inst, whenTrue, whenFalse, results⟩

/-- Add a loop with an empty body and an empty continuing block. -/
def loop (types : List Ty) : Build LoopHandle := do
  let owner ← nextInst
  let body ← newBlock (some owner)
  let continuing ← newBlock (some owner)
  let (inst, results) ← push (.loop ⟨none, body, continuing, []⟩) types
  return ⟨inst, body, continuing, results⟩

/-- Give a loop a block that runs once before the first iteration. -/
def loopInitializer (target : InstId) : Build BlockId := do
  let block ← newBlock (some target)
  changeKind target .loop fun
    | .loop l => some (.loop { l with initializer := some block })
    | _ => none
  return block

/-- Add a switch without cases. -/
def switch (condition : Value) (types : List Ty) : Build SwitchHandle := do
  let (inst, results) ← push (.switch ⟨condition, [], []⟩) types
  return ⟨inst, results⟩

/-- Add a case to a switch. -/
def addCase (target : InstId) (selectors : List Selector) : Build BlockId := do
  let block ← newBlock (some target)
  changeKind target .switch fun
    | .switch s => some (.switch { s with cases := s.cases ++ [⟨selectors, block⟩] })
    | _ => none
  return block

/-- The loop a branch goes to. -/
def loopOf (target : InstId) : Build Loop := do
  match (← ask (·.inst target)).kind with
  | .loop l => return l
  | _ => refuse (.wrongConstruct .loop target)

/-- A construct with one more branch out of it, if it is of the expected kind. -/
def withExit (expected : ConstructKind) (exit : InstId) (kind : Kind) : Option Kind :=
  match expected, kind with
  | .conditional, .conditional c => some (.conditional { c with exits := c.exits ++ [exit] })
  | .loop, .loop l => some (.loop { l with exits := l.exits ++ [exit] })
  | .switch, .switch s => some (.switch { s with exits := s.exits ++ [exit] })
  | _, _ => none

/-- Register a branch with the construct it leaves. -/
def registerExit (target exit : InstId) (expected : ConstructKind) : Build Unit :=
  changeKind target expected (withExit expected exit)

/-- Register a branch with the block it goes to. -/
def registerInbound (block : BlockId) (branch : InstId) : Build Unit :=
  changeBlock block fun b => { b with inbound := b.inbound ++ [branch] }

def ret (value : Option Value) : Build Unit := do
  let _ ← pushVoid (.ret value)

def exitIf (target : InstId) (args : List Value) : Build Unit := do
  let exit ← pushVoid (.exitIf target args)
  registerExit target exit .conditional

def exitLoop (target : InstId) (args : List Value) : Build Unit := do
  let exit ← pushVoid (.exitLoop target args)
  registerExit target exit .loop

def exitSwitch (target : InstId) (args : List Value) : Build Unit := do
  let exit ← pushVoid (.exitSwitch target args)
  registerExit target exit .switch

/-- Leave a loop if `condition` holds, otherwise start its next iteration. -/
def breakIf (target : InstId) (condition : Value) (nextArgs exitArgs : List Value) : Build Unit := do
  let l ← loopOf target
  let exit ← pushVoid (.breakIf condition target nextArgs exitArgs)
  registerExit target exit .loop
  registerInbound l.body exit

def continueTo (target : InstId) (args : List Value) : Build Unit := do
  let l ← loopOf target
  let branch ← pushVoid (.continueTo target args)
  registerInbound l.continuing branch

def nextIteration (target : InstId) (args : List Value) : Build Unit := do
  let l ← loopOf target
  let branch ← pushVoid (.nextIteration target args)
  registerInbound l.body branch

def terminate : Build Unit := do
  let _ ← pushVoid .terminate

def unreachable : Build Unit := do
  let _ ← pushVoid .unreachable

end Build
end Shader
