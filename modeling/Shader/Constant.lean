import Shader.Fault

/-!
Constants and the pool that holds them.

A composite whose elements are all the same constant is stored as a splat, so both ways to write one
value are one entry. The pool holds each constant once: inserting a constant that is there already
gives the position it has.
-/
namespace Shader

/-- The type of a scalar constant. -/
def Scalar.ty : Scalar → Ty
  | .bool _ => .bool
  | .i32 _ => .i32
  | .u32 _ => .u32
  | .f32 _ => .f32
  | .f16 _ => .f16

/-- A constant: a scalar, a composite with one element for each component, or a composite whose
`count` components are all the same. -/
inductive Constant where
  | scalar (value : Scalar)
  | composite (ty : Ty) (elements : List ConstId)
  | splat (ty : Ty) (element : ConstId) (count : UInt32)
  deriving DecidableEq

namespace Constant

/-- The one way a value is stored: a composite of equal elements is a splat. -/
def canonical : Constant → Constant
  | .composite ty (first :: rest) =>
    if rest.all (· = first) then .splat ty first (UInt32.ofNat (rest.length + 1))
    else .composite ty (first :: rest)
  | constant => constant

def ty : Constant → Ty
  | .scalar value => value.ty
  | .composite ty _ => ty
  | .splat ty _ _ => ty

def describe : Constant → String
  | .scalar value => Text.tuple "Scalar" [value.describe]
  | .composite ty elements =>
    Text.record "Composite"
      [("ty", ty.describe), ("elements", Text.sequence (elements.map ConstId.describe))]
  | .splat ty element count =>
    Text.record "Splat"
      [("ty", ty.describe), ("element", element.describe), ("count", toString count)]

end Constant

/-- Constants by position. -/
structure Pool where
  items : Array Constant
  deriving DecidableEq

/-- A constant of a list that was there before: its position, the earlier one, and the constant as it
would be stored. -/
structure Repeated where
  index : Nat
  first : Nat
  constant : Constant
  deriving DecidableEq

def Repeated.text (repeated : Repeated) : String :=
  s!"constant {repeated.index} duplicates constant {repeated.first}: {repeated.constant.describe}"

namespace Pool

/-- The pool with no constants. -/
def empty : Pool := ⟨#[]⟩

def size (pool : Pool) : Nat := pool.items.size

/-- Where a constant is stored. -/
def position? (pool : Pool) (constant : Constant) : Option Nat :=
  pool.items.findIdx? (· = constant)

/-- Store a constant unless it is stored already, and say where it is. -/
def insert (pool : Pool) (constant : Constant) : ConstId × Pool :=
  match pool.position? constant.canonical with
  | some index => (⟨index⟩, pool)
  | none => (⟨pool.size⟩, ⟨pool.items.push constant.canonical⟩)

/-- Store the constants of a list behind those of the pool, each at its own position. -/
def append (pool : Pool) : List Constant → Except Repeated Pool
  | [] => .ok pool
  | constant :: rest =>
    match pool.position? constant.canonical with
    | some first => .error ⟨pool.size, first, constant.canonical⟩
    | none => append ⟨pool.items.push constant.canonical⟩ rest

/-- The pool that holds constant `k` of a list at position `k`. -/
def ofList (constants : List Constant) : Except Repeated Pool := empty.append constants

def get (pool : Pool) (id : ConstId) : Except Fault Constant :=
  match pool.items[id.index]? with
  | some constant => .ok constant
  | none => .error (.unknownConstant id)

def typeOf (pool : Pool) (id : ConstId) : Except Fault Ty := do
  return (← pool.get id).ty

/-- Whether every scalar reached through at most `depth` constants is zero. -/
def allZeroWithin (pool : Pool) : (depth : Nat) → ConstId → Except Fault Bool
  | 0, _ => .error .circular
  | depth + 1, id => do
    match ← pool.get id with
    | .scalar value => return value.isZero
    | .composite _ elements => elements.allM (pool.allZeroWithin depth)
    | .splat _ element _ => pool.allZeroWithin depth element

/-- Whether every scalar a constant is built from is zero. Constants that do not contain themselves nest
at most as deep as the pool is large. -/
def allZero (pool : Pool) (id : ConstId) : Except Fault Bool :=
  pool.allZeroWithin (pool.size + 1) id

/-- A component of a composite constant. Every component of a splat is its element. -/
def element (pool : Pool) (id : ConstId) (index : Nat) : Except Fault ConstId := do
  match ← pool.get id with
  | .composite _ elements =>
    match elements[index]? with
    | some element => return element
    | none => throw (.noElement id index)
  | .splat _ element _ => return element
  | .scalar value => throw (.elementOfScalar value)

/-- The bits of an integer constant. -/
def word? (pool : Pool) (id : ConstId) : Except Fault (Option UInt32) := do
  match ← pool.get id with
  | .scalar (.i32 value) => return some value.toUInt32
  | .scalar (.u32 value) => return some value
  | _ => return none

end Pool
end Shader
