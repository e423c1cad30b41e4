import Shader.Operators
import Shader.Value

/-!
Instructions of a module.

Control instructions own the blocks they run. A branch out of a construct carries the values of the
construct's results; a branch into the body or the continuing block of a loop carries the values of
that block's parameters.
-/
namespace Shader

/-- Runs one of two blocks. `exits` are the branches out of it, in the order they were made. -/
structure Conditional where
  condition : Value
  whenTrue : BlockId
  whenFalse : BlockId
  exits : List InstId
  deriving DecidableEq

/-- Runs `body` and then `continuing` over and over, after running `initializer` once. -/
structure Loop where
  initializer : Option BlockId
  body : BlockId
  continuing : BlockId
  exits : List InstId
  deriving DecidableEq

/-- What selects a case: a constant, or that no other case is selected. -/
inductive Selector where
  | otherwise
  | value (id : ConstId)
  deriving DecidableEq

/-- A case of a switch. -/
structure Case where
  selectors : List Selector
  block : BlockId
  deriving DecidableEq

/-- Whether a case runs when no other one is selected. -/
def Case.isDefault (case : Case) : Bool := case.selectors.contains .otherwise

/-- Runs the block of the selected case. -/
structure Switch where
  condition : Value
  cases : List Case
  exits : List InstId
  deriving DecidableEq

/-- A variable; the result of its instruction is the pointer to it. -/
structure Variable where
  initializer : Option Value := none
  bindingPoint : Option BindingPoint := none
  attributes : IoAttributes := {}
  attachmentIndex : Option UInt32 := none
  deriving DecidableEq

/-- What an instruction does. The ones from `ret` on end a block. -/
inductive Kind where
  | access (object : Value) (indices : List Value)
  | binary (op : BinaryOp) (lhs rhs : Value)
  | unary (op : UnaryOp) (value : Value)
  | bitcast (value : Value)
  | convert (value : Value)
  | construct (args : List Value)
  | swizzle (object : Value) (indices : List UInt32)
  | load (source : Value)
  | store (target value : Value)
  | loadElement (source index : Value)
  | storeElement (target index value : Value)
  | var (declaration : Variable)
  | bind (value : Value)
  | builtin (fn : BuiltinFn) (args : List Value)
  | targetCall (fn : TargetFn) (args : List Value)
  | call (target : FuncId) (args : List Value)
  | conditional (construct : Conditional)
  | loop (construct : Loop)
  | switch (construct : Switch)
  | ret (value : Option Value)
  | breakIf (condition : Value) (target : InstId) (nextArgs exitArgs : List Value)
  | continueTo (target : InstId) (args : List Value)
  | nextIteration (target : InstId) (args : List Value)
  | exitIf (target : InstId) (args : List Value)
  | exitLoop (target : InstId) (args : List Value)
  | exitSwitch (target : InstId) (args : List Value)
  | terminate
  | unreachable
  deriving DecidableEq

namespace Kind

/-- A short name for diagnostics. -/
def name : Kind → String
  | .access .. => "access"
  | .binary .. => "binary"
  | .unary .. => "unary"
  | .bitcast .. => "bitcast"
  | .convert .. => "convert"
  | .construct .. => "construct"
  | .swizzle .. => "swizzle"
  | .load .. => "load"
  | .store .. => "store"
  | .loadElement .. => "load_vector_element"
  | .storeElement .. => "store_vector_element"
  | .var .. => "var"
  | .bind .. => "let"
  | .builtin .. => "builtin call"
  | .targetCall .. => "spirv builtin call"
  | .call .. => "call"
  | .conditional .. => "if"
  | .loop .. => "loop"
  | .switch .. => "switch"
  | .ret .. => "return"
  | .breakIf .. => "break_if"
  | .continueTo .. => "continue"
  | .nextIteration .. => "next_iteration"
  | .exitIf .. => "exit_if"
  | .exitLoop .. => "exit_loop"
  | .exitSwitch .. => "exit_switch"
  | .terminate => "terminate_invocation"
  | .unreachable => "unreachable"

/-- Whether an instruction ends its block. -/
def isTerminator : Kind → Bool
  | .ret .. | .breakIf .. | .continueTo .. | .nextIteration .. | .exitIf .. | .exitLoop ..
  | .exitSwitch .. | .terminate | .unreachable => true
  | _ => false

/-- Whether an instruction owns blocks. -/
def isControl : Kind → Bool
  | .conditional _ | .loop _ | .switch _ => true
  | _ => false

/-- The values a branch carries out of its construct. -/
def exitArgs : Kind → List Value
  | .breakIf _ _ _ exitArgs => exitArgs
  | .exitIf _ args | .exitLoop _ args | .exitSwitch _ args => args
  | _ => []

/-- The values a branch passes to the parameters of the block it goes to. -/
def branchArgs : Kind → List Value
  | .breakIf _ _ nextArgs _ => nextArgs
  | .continueTo _ args | .nextIteration _ args => args
  | _ => []

/-- The blocks an instruction owns, in the order they are laid out. -/
def children : Kind → List BlockId
  | .conditional c => [c.whenTrue, c.whenFalse]
  | .loop l => l.initializer.toList ++ [l.body, l.continuing]
  | .switch s => s.cases.map Case.block
  | _ => []

/-- The operands of an instruction. -/
def operands : Kind → List Value
  | .access object indices => object :: indices
  | .binary _ lhs rhs => [lhs, rhs]
  | .unary _ value | .bitcast value | .convert value | .bind value => [value]
  | .construct args => args
  | .swizzle object _ => [object]
  | .load source => [source]
  | .store target value => [target, value]
  | .loadElement source index => [source, index]
  | .storeElement target index value => [target, index, value]
  | .var declaration => declaration.initializer.toList
  | .builtin _ args | .targetCall _ args | .call _ args => args
  | .conditional c => [c.condition]
  | .loop _ => []
  | .switch s => [s.condition]
  | .ret value => value.toList
  | .breakIf condition _ nextArgs exitArgs => condition :: nextArgs ++ exitArgs
  | .continueTo _ args | .nextIteration _ args => args
  | .exitIf _ args | .exitLoop _ args | .exitSwitch _ args => args
  | .terminate | .unreachable => []

end Kind

/-- An instruction: what it does, the values it defines and the block it is in. -/
structure Inst where
  kind : Kind
  results : List ValueId
  block : BlockId
  deriving DecidableEq

/-- The value of an instruction that defines one. -/
def Inst.result? (inst : Inst) : Option ValueId := inst.results.head?

end Shader
