import Shader.Builder

/-!
Builder steps as data, so that a sequence of steps can be stored, replayed and reasoned about.
-/
namespace Shader

/-- A step of building a module. -/
inductive Call where
  | currentBlock
  | switchToBlock (block : BlockId)
  | switchToRoot
  | function (name : String) (returnType : Ty) (stage : Stage)
  | computeFunction (name : String) (size : UInt32 × UInt32 × UInt32)
  | param (function : FuncId) (ty : Ty) (name : Option String)
  | blockParam (block : BlockId) (ty : Ty)
  | addStruct (definition : StructDef)
  | setName (value : Value) (name : String)
  | constant (constant : Constant)
  | binary (op : BinaryOp) (ty : Ty) (lhs rhs : Value)
  | unary (op : UnaryOp) (ty : Ty) (value : Value)
  | bitcast (ty : Ty) (value : Value)
  | convert (ty : Ty) (value : Value)
  | construct (ty : Ty) (args : List Value)
  | swizzle (ty : Ty) (object : Value) (indices : List UInt32)
  | access (ty : Ty) (object : Value) (indices : List Value)
  | load (source : Value)
  | store (target value : Value)
  | loadElement (source index : Value)
  | storeElement (target index value : Value)
  | var (ty : Ty) (declaration : Variable)
  | bind (value : Value)
  | builtin (ty : Ty) (fn : BuiltinFn) (args : List Value)
  | builtinVoid (fn : BuiltinFn) (args : List Value)
  | targetCall (ty : Ty) (fn : TargetFn) (args : List Value)
  | targetCallVoid (fn : TargetFn) (args : List Value)
  | call (target : FuncId) (args : List Value)
  | callVoid (target : FuncId) (args : List Value)
  | conditional (condition : Value) (types : List Ty)
  | loop (types : List Ty)
  | loopInitializer (target : InstId)
  | switch (condition : Value) (types : List Ty)
  | addCase (target : InstId) (selectors : List Selector)
  | ret (value : Option Value)
  | exitIf (target : InstId) (args : List Value)
  | exitLoop (target : InstId) (args : List Value)
  | exitSwitch (target : InstId) (args : List Value)
  | breakIf (target : InstId) (condition : Value) (nextArgs exitArgs : List Value)
  | continueTo (target : InstId) (args : List Value)
  | nextIteration (target : InstId) (args : List Value)
  | terminate
  | unreachable
  deriving DecidableEq

/-- What a step answers. -/
inductive Reply where
  | done
  | block (id : BlockId)
  | function (id : FuncId)
  | value (value : Value)
  | type (ty : Ty)
  | conditional (handle : Build.ConditionalHandle)
  | loop (handle : Build.LoopHandle)
  | switch (handle : Build.SwitchHandle)

namespace Call

/-- Carry out a step. -/
def run : Call → Build Reply
  | .currentBlock => return .block (← Build.currentBlock)
  | .switchToBlock block => do Build.switchToBlock block; return .done
  | .switchToRoot => do Build.switchToRoot; return .done
  | .function name returnType stage => return .function (← Build.function name returnType stage)
  | .computeFunction name size => return .function (← Build.computeFunction name size)
  | .param owner ty name => return .value (← Build.param owner ty name)
  | .blockParam block ty => return .value (← Build.blockParam block ty)
  | .addStruct definition => return .type (← Build.addStruct definition)
  | .setName value name => do Build.setName value name; return .done
  | .constant item => return .value (← Build.constant item)
  | .binary op ty lhs rhs => return .value (← Build.binary op ty lhs rhs)
  | .unary op ty value => return .value (← Build.unary op ty value)
  | .bitcast ty value => return .value (← Build.bitcast ty value)
  | .convert ty value => return .value (← Build.convert ty value)
  | .construct ty args => return .value (← Build.construct ty args)
  | .swizzle ty object indices => return .value (← Build.swizzle ty object indices)
  | .access ty object indices => return .value (← Build.access ty object indices)
  | .load source => return .value (← Build.load source)
  | .store target value => do Build.store target value; return .done
  | .loadElement source index => return .value (← Build.loadElement source index)
  | .storeElement target index value => do Build.storeElement target index value; return .done
  | .var ty declaration => return .value (← Build.var ty declaration)
  | .bind value => return .value (← Build.bind value)
  | .builtin ty fn args => return .value (← Build.builtin ty fn args)
  | .builtinVoid fn args => do Build.builtinVoid fn args; return .done
  | .targetCall ty fn args => return .value (← Build.targetCall ty fn args)
  | .targetCallVoid fn args => do Build.targetCallVoid fn args; return .done
  | .call target args => return .value (← Build.call target args)
  | .callVoid target args => do Build.callVoid target args; return .done
  | .conditional condition types => return .conditional (← Build.conditional condition types)
  | .loop types => return .loop (← Build.loop types)
  | .loopInitializer target => return .block (← Build.loopInitializer target)
  | .switch condition types => return .switch (← Build.switch condition types)
  | .addCase target selectors => return .block (← Build.addCase target selectors)
  | .ret value => do Build.ret value; return .done
  | .exitIf target args => do Build.exitIf target args; return .done
  | .exitLoop target args => do Build.exitLoop target args; return .done
  | .exitSwitch target args => do Build.exitSwitch target args; return .done
  | .breakIf target condition nextArgs exitArgs => do
    Build.breakIf target condition nextArgs exitArgs
    return .done
  | .continueTo target args => do Build.continueTo target args; return .done
  | .nextIteration target args => do Build.nextIteration target args; return .done
  | .terminate => do Build.terminate; return .done
  | .unreachable => do Build.unreachable; return .done

end Call

/-- Carry out one step on a builder: what it answers or how it fails, and the builder after it. -/
def Builder.apply (builder : Builder) (call : Call) : Except BuildFailure Reply × Builder :=
  (call.run.run).run builder

/-- Whether building can go on after a failure: only a refused step leaves a usable builder. -/
def BuildFailure.isRefusal : BuildFailure → Bool
  | .refused _ => true
  | _ => false

/-- Carry out steps one after the other. Refused steps are passed over; the result is none if a step
failed otherwise. -/
def Builder.replay (builder : Builder) : List Call → Option Builder
  | [] => some builder
  | call :: calls =>
    match builder.apply call with
    | (.ok _, next) => next.replay calls
    | (.error failure, next) => if failure.isRefusal then next.replay calls else none

end Shader
