import Shader.Builder

/-!
Sample modules.
-/
namespace Shader

/-- The sample modules. -/
inductive Sample where
  | sum
  | double
  | stripes
  | count
  deriving DecidableEq

instance : Spelled Sample where
  members := [.sum, .double, .stripes, .count]
  spelling
    | .sum => "sum"
    | .double => "double"
    | .stripes => "stripes"
    | .count => "count"

namespace Sample

open Build

/-- Adds one and two. -/
def buildSum : Build Unit := do
  let _ ← function "main" .f32 .none
  let one ← scalar (.f32 0x3F800000)
  let two ← scalar (.f32 0x40000000)
  let sum ← binary .add .f32 one two
  ret (some sum)

/-- Doubles each element of a buffer. -/
def buildDouble : Build Unit := do
  let bufferTy ← addStruct
    ⟨some "Buffer", [⟨some "data", .array .u32 .runtime 4, 0⟩], true⟩
  let buffer ← var (.pointer .storage bufferTy .readWrite) { bindingPoint := some ⟨0, 0⟩ }
  setName buffer "buffer"
  let position ← var (.pointer .input (.vector .u32 3) .read)
    { attributes := { builtin := some .globalInvocationId } }
  let _ ← computeFunction "main" (64, 1, 1)
  let invocation ← load position
  let zero ← scalar (.u32 0)
  let index ← access .u32 invocation [zero]
  let element ← access (.pointer .storage .u32 .readWrite) buffer [zero, index]
  let value ← load element
  let two ← scalar (.u32 2)
  let doubled ← binary .multiply .u32 value two
  store element doubled
  ret none

/-- The first result of a construct. -/
def firstResult : List Value → Build Value
  | value :: _ => return value
  | [] => throw .outOfRange

/-- Colours a fragment white or black by the parity of its column. -/
def buildStripes : Build Unit := do
  let color : Ty := .vector .f32 4
  let position ← var (.pointer .input color .read)
    { attributes := { builtin := some .position } }
  let output ← var (.pointer .output color .write) { attributes := { location := some 0 } }
  let _ ← function "main" .void .fragment
  let coordinates ← load position
  let zero ← scalar (.u32 0)
  let x ← access .f32 coordinates [zero]
  let width ← scalar (.f32 0x41800000)
  let cell ← binary .divide .f32 x width
  let whole ← builtin .f32 .floor [cell]
  let two ← scalar (.f32 0x40000000)
  let parity ← binary .modulo .f32 whole two
  let one ← scalar (.f32 0x3F800000)
  let odd ← binary .equal .bool parity one
  let after ← currentBlock
  let choice ← conditional odd [color]
  let on ← internConstant (.scalar (.f32 0x3F800000))
  let off ← internConstant (.scalar (.f32 0))
  switchToBlock choice.whenTrue
  let white ← splat color on 4
  exitIf choice.inst [white]
  switchToBlock choice.whenFalse
  let black ← composite color [off, off, off, on]
  exitIf choice.inst [black]
  switchToBlock after
  store output (← firstResult choice.results)
  ret none

/-- Adds the numbers below ten in a loop. -/
def buildCount : Build Unit := do
  let _ ← function "count" .i32 .none
  let after ← currentBlock
  let sum ← loop [.i32]
  let start ← loopInitializer sum.inst
  switchToBlock start
  let zero ← scalar (.i32 0)
  nextIteration sum.inst [zero, zero]
  let i ← blockParam sum.body .i32
  let total ← blockParam sum.body .i32
  switchToBlock sum.body
  let added ← binary .add .i32 total i
  continueTo sum.inst [i, added]
  let i ← blockParam sum.continuing .i32
  let total ← blockParam sum.continuing .i32
  switchToBlock sum.continuing
  let one ← scalar (.i32 1)
  let next ← binary .add .i32 i one
  let ten ← scalar (.i32 10)
  let finished ← binary .greaterThanEqual .bool next ten
  breakIf sum.inst finished [next, total] [total]
  switchToBlock after
  ret (some (← firstResult sum.results))

/-- The steps that build a sample. -/
def steps : Sample → Build Unit
  | .sum => buildSum
  | .double => buildDouble
  | .stripes => buildStripes
  | .count => buildCount

/-- A sample module. -/
def module (sample : Sample) : Except BuildFailure Module :=
  match (sample.steps.run).run (Builder.start .empty) with
  | (.ok (), builder) => .ok builder.module
  | (.error failure, _) => .error failure

end Sample
end Shader
