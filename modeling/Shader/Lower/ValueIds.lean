import Shader.Lower.TypeIds

/-!
Ids of constants and of values.

A composite constant whose scalars are all zero is the null constant of its type, of which there is one.
Every other constant is declared when it is first used, after its elements.
-/
namespace Shader.Lower

open Binary

/-- The id of the null constant of a type. Pointers have none. -/
def nullId (m : Module) (ty : Ty) : Lower Word :=
  remember .nulls ty.normal do
    if ty.normal.pointee?.isSome then
      fail (.constantType ty.normal)
    let typeWord ← typeId m ty.normal
    let id ← fresh
    declare .constantNull [.id typeWord, .id id]
    return id

/-- The id of the undefined value of a type. -/
def undefId (m : Module) (ty : Ty) : Lower Word :=
  remember .undefs ty.normal do
    let typeWord ← typeId m ty.normal
    let id ← fresh
    declare .undef [.id typeWord, .id id]
    return id

/-- How many components a constant of a composite type has. -/
def componentCount (m : Module) (constant : ConstId) : Ty → Except Fault Nat
  | .vector _ width => return width.toNat
  | .matrix _ columns _ => return columns.toNat
  | .array _ (.constant count) _ => return count.toNat
  | .array _ .runtime _ => throw (.runtimeArrayConstant constant)
  | .struct struct => return (← m.structDef struct).members.length
  | ty => throw (.constantType ty)

/-- Declare a scalar constant. -/
def declareScalar (typeWord id : Word) : Scalar → Lower Unit
  | .bool true => declare .constantTrue [.id typeWord, .id id]
  | .bool false => declare .constantFalse [.id typeWord, .id id]
  | .i32 value => declare .constant [.id typeWord, .id id, .literal value.toUInt32]
  | .u32 value => declare .constant [.id typeWord, .id id, .literal value]
  | .f32 bits => declare .constant [.id typeWord, .id id, .literal bits]
  | .f16 bits => declare .constant [.id typeWord, .id id, .literal bits.toUInt32]

/-- The ids of the next `count` elements of a constant, behind those in `found`, which are listed
backwards. -/
def elementIds (elementId : ConstId → Lower Word) (constant : ConstId) (index : Nat) (found : List Word) :
    (count : Nat) → Lower (List Word)
  | 0 => return found.reverse
  | count + 1 => do
    let id ← elementId (← askPool (·.element constant index))
    elementIds elementId constant (index + 1) (id :: found) count

/-- Declare a constant of type `ty`; `elementId` gives the ids of its elements. -/
def declareConstant (m : Module) (elementId : ConstId → Lower Word) (constant : ConstId) (ty : Ty) :
    Lower Word := do
  let typeWord ← typeId m ty
  let id ← fresh
  match ← askPool (·.get constant) with
  | .scalar value => declareScalar typeWord id value
  | _ => do
    let count ← check (componentCount m constant ty)
    let elements ← elementIds elementId constant 0 [] count
    declare .constantComposite (.id typeWord :: .id id :: elements.map .id)
  return id

/-- The id of a constant whose elements nest at most `depth` deep. -/
def constantIdWithin (m : Module) : (depth : Nat) → ConstId → Lower Word
  | 0, _ => fail .circular
  | depth + 1, constant =>
    remember .constants constant do
      let ty ← askPool (·.typeOf constant)
      let isNull ← if ty.isScalar then pure false else askPool (·.allZero constant)
      if isNull then nullId m ty
      else declareConstant m (constantIdWithin m depth) constant ty

/-- The id of a constant. Constants that do not contain themselves nest at most as deep as the pool is
large. -/
def constantId (m : Module) (constant : ConstId) : Lower Word := do
  constantIdWithin m ((← get).pool.size + 1) constant

/-- The id of an operand. A bare word stands for itself. -/
def valueId (m : Module) : Value → Lower Word
  | .constant id => constantId m id
  | .literal word => return word
  | .ssa id => remember .values id fresh

/-- The label of a block. -/
def labelId (block : BlockId) : Lower Word := remember .labels block fresh

/-- The label after a construct. -/
def mergeId (construct : InstId) : Lower Word := remember .merges construct fresh

def functionId (function : FuncId) : Lower Word := remember .functions function fresh

/-- The type of an operand. -/
def typeOf (m : Module) (value : Value) : Lower Ty := askPool (m.typeIn · value)

/-- The value an instruction defines. -/
def resultOf (inst : Inst) : Lower ValueId :=
  match inst.result? with
  | some result => return result
  | none => fail (.noResult inst.kind.name)

/-- The type of the value an instruction defines. -/
def resultType (m : Module) (inst : Inst) : Lower Ty := do
  return (← check (m.value (← resultOf inst))).ty

/-- The id of the type of the value an instruction defines. -/
def resultTypeId (m : Module) (inst : Inst) : Lower Word := do typeId m (← resultType m inst)

/-- The id of the value an instruction defines. -/
def resultId (m : Module) (inst : Inst) : Lower Word := do valueId m (.ssa (← resultOf inst))

/-- Let a value stand for another one. A value that was referred to before keeps its id and is defined
as a copy. -/
def aliasTo (m : Module) (result : ValueId) (source : Value) : Lower Unit := do
  let sourceId ← valueId m source
  match (← get).values.find? result with
  | some existing => do
    let ty ← typeId m (← check (m.value result)).ty
    emit .copyObject [.id ty, .id existing, .id sourceId]
  | none => enter .values result sourceId

/-- Name the values an instruction defines. -/
def nameResults (m : Module) (inst : Inst) : Lower Unit :=
  inst.results.forM fun result => do
    if let some name ← check (m.nameOf result) then
      nameId (← valueId m (.ssa result)) name

end Shader.Lower
