import Shader.Lower.Program
import Shader.Proofs.Depth

/-!
Readings that find no fault with the control flow.

The faults of control flow are those of branches and constructs: a branch outside of the construct it names, a value
that it does not bring along, a switch without a case to fall back on. Nothing that is read of a module on the way, and
no choice of an instruction, comes to such a fault. Nor does it come to the fault of going round in circles, unless it
follows what it reads to any depth. The instructions that are chosen name nothing, either, and declare nothing.
-/
namespace Shader

open Selection Shader.Module

variable {ty : Ty} {m : Module} {op : Binary.Opcode} {opcode : Opcode} {cut : Bool}

/-- The faults that branches and constructs lead to. -/
def Fault.ofControlFlow : Fault → Bool
  | .outsideConstruct .. | .continueTarget _ | .noDefaultCase _ | .severalDefaultCases .. | .caseSelector ..
  | .notInBlock .. | .noBranchArgument .. | .noExitValue .. => true
  | _ => false

/-- The failures that branches and constructs lead to. -/
def Failure.ofControlFlow : Failure → Bool
  | .fault cause => cause.ofControlFlow
  | .tooManyParameters _ | .idsExhausted => false

/-- The faults that come neither from the control flow nor from going round in circles. -/
def Fault.isPlain : Fault → Bool
  | .circular => false
  | fault => !fault.ofControlFlow

def Failure.isPlain : Failure → Bool
  | .fault cause => cause.isPlain
  | .tooManyParameters _ | .idsExhausted => true

/-- A reading that finds plain faults alone, unless it is cut off at some depth. -/
class Harmless {α : Type} (cut : Bool) (read : Except Fault α) : Prop where
  fault : ∀ fault, read = .error fault → fault.isPlain = true ∨ cut = true ∧ fault = .circular

namespace Harmless

variable {α β : Type}
variable {read : Except Fault α} {f : α → Except Fault β} {list : List α}

instance ok {a : α} : Harmless cut (.ok a) := ⟨fun _ same => by cases same⟩

instance pure {a : α} : Harmless cut (pure a) := ok

theorem error {fault : Fault} (plain : fault.isPlain = true) : Harmless cut (.error fault : Except Fault α) :=
  ⟨fun _ same => by cases same; exact .inl plain⟩

theorem circular (isCut : cut = true) : Harmless cut (.error .circular : Except Fault α) :=
  ⟨fun _ same => by cases same; exact .inr ⟨isCut, rfl⟩⟩

/-- Where it matters what was read. -/
theorem next_of {next : α → Except Fault β} [first : Harmless cut read]
    (second : ∀ a, read = .ok a → Harmless cut (next a)) : Harmless cut (read >>= next) := by
  cases read with
  | error fault => exact ⟨fun _ same => by cases same; exact first.fault fault rfl⟩
  | ok a => exact second a rfl

/-- Where what comes next is a matter of cases. -/
theorem next {next : α → Except Fault β} [Harmless cut read]
    (second : ∀ a, Harmless cut (next a)) : Harmless cut (read >>= next) := next_of fun a _ => second a

instance bind {next : α → Except Fault β} [Harmless cut read]
    [second : ∀ a, Harmless cut (next a)] : Harmless cut (read >>= next) := next_of fun a _ => second a

theorem mapM_of (each : ∀ a ∈ list, Harmless cut (f a)) : Harmless cut (list.mapM f) := by
  induction list with
  | nil =>
    rw [List.mapM_nil]
    exact pure
  | cons a rest ih =>
    rw [List.mapM_cons]
    have first := each a List.mem_cons_self
    have later := ih fun b member => each b (List.mem_cons_of_mem _ member)
    infer_instance

instance mapM [each : ∀ a, Harmless cut (f a)] : Harmless cut (list.mapM f) :=
  mapM_of fun a _ => each a

theorem allM_of {f : α → Except Fault Bool} (each : ∀ a ∈ list, Harmless cut (f a)) : Harmless cut (list.allM f) := by
  induction list with
  | nil => exact pure
  | cons a rest ih =>
    have first := each a List.mem_cons_self
    have later := ih fun b member => each b (List.mem_cons_of_mem _ member)
    refine next fun found => ?_
    split <;> infer_instance

end Harmless

section
variable {m : Module} {pool : Pool} {block : BlockId} {value : ValueId} {id : InstId} {constant : ConstId}

instance {struct : StructId} : Harmless cut (m.structDef struct) := by
  unfold structDef
  split
  · exact .ok
  · exact .error rfl

instance : Harmless cut (m.value value) := by
  unfold Module.value
  split
  · exact .ok
  · exact .error rfl

instance : Harmless cut (m.inst id) := by
  unfold inst
  split
  · exact .ok
  · exact .error rfl

instance harmless_block : Harmless cut (m.block block) := by
  unfold Module.block
  split
  · exact .ok
  · exact .error rfl

instance {function : FuncId} : Harmless cut (m.function function) := by
  unfold Module.function
  split
  · exact .ok
  · exact .error rfl

instance : Harmless cut (m.nameOf value) := by
  unfold nameOf
  infer_instance

instance : Harmless cut (pool.get constant) := by
  unfold Pool.get
  split
  · exact .ok
  · exact .error rfl

instance : Harmless cut (pool.typeOf constant) := by
  unfold Pool.typeOf
  infer_instance

instance {value : Value} : Harmless cut (m.typeIn pool value) := by
  cases value <;> (unfold typeIn; infer_instance)

theorem harmless_allZeroWithin {depth : Nat} (ends : cut = true ∨ Shallow pool.Contains depth constant) :
    Harmless cut (pool.allZeroWithin depth constant) := by
  induction depth generalizing constant with
  | zero => exact .circular (ends.resolve_right id)
  | succ depth ih =>
    refine .next_of fun stored found => ?_
    have each (part : ConstId) (member : part ∈ stored.parts) : Harmless cut (pool.allZeroWithin depth part) :=
      ih (ends.imp_right fun shallow => shallow part ⟨stored, found, member⟩)
    cases stored with
    | scalar value => exact .pure
    | composite ty elements => exact .allM_of each
    | splat ty element count => exact each element (List.mem_singleton_self _)

instance {index : Nat} : Harmless cut (pool.element constant index) := by
  refine .next fun stored => ?_
  split
  · split
    · infer_instance
    · exact .error rfl
  · infer_instance
  · exact .error rfl

instance : Harmless cut (pool.word? constant) := by
  refine .next fun stored => ?_
  split <;> infer_instance

instance : Harmless cut (m.terminator? block) := by
  refine .next fun b => ?_
  split <;> infer_instance

instance {index : UInt32} : Harmless cut (m.elementType index ty) := by
  unfold elementType
  split
  · infer_instance
  · infer_instance
  · infer_instance
  · refine .next fun definition => ?_
    split
    · infer_instance
    · exact .error rfl
  · exact .error rfl

theorem harmless_valuesUsedUnder (ends : cut = true ∨ m.Acyclic) : Harmless cut (m.valuesUsedUnder block) := by
  have used (block : BlockId) : Harmless cut (m.valuesUsedIn block) := by
    unfold valuesUsedIn
    infer_instance
  replace ends := ends.imp_right fun acyclic => acyclic.shallow block
  unfold valuesUsedUnder collect
  generalize m.blocks.size + 1 = depth at ends
  induction depth generalizing block with
  | zero => exact .circular (ends.resolve_right id)
  | succ depth ih =>
    refine .next fun found => .next_of fun b isBlock => ?_
    have nested : Harmless cut (b.insts.mapM fun inst => do
        return (← (← m.childrenOf inst).mapM (m.collectWithin m.valuesUsedIn depth)).flatten) := by
      refine .mapM_of fun id member => ?_
      simp only [childrenOf, bind_assoc, pure_bind]
      refine .next_of fun inst held => ?_
      have each := Harmless.mapM_of fun child (owned : child ∈ inst.kind.children) =>
        ih (ends.imp_right fun shallow => shallow child (encloses_of_mem isBlock member held owned))
      infer_instance
    infer_instance

end

namespace Lower

open Binary

variable {space : AddressSpace} {operands : List Binary.Operand}

instance : Harmless cut (storageClass space) := by
  cases space <;> first | exact .ok | exact .error rfl

instance {use : ImageUse} {dim : TextureDim} : Harmless cut (use.dim dim) := by
  unfold ImageUse.dim
  split <;> first | exact .ok | exact .error rfl

instance {format : TexelFormat} : Harmless cut (imageFormat format) := by
  cases format <;> first | exact .ok | exact .error rfl

instance {value : BuiltinValue} : Harmless cut (builtinValueWord space value) := by
  cases value <;> first | exact .ok | exact .error rfl

instance {constant : ConstId} : Harmless cut (componentCount m constant ty) := by
  unfold componentCount
  split <;> first | infer_instance | exact .error rfl

instance {op : BinaryOp} {lhs : Ty} : Harmless cut (binary op ty lhs) := by
  unfold binary
  split
  · exact .error rfl
  · exact .error rfl
  · split
    · exact .ok
    · exact .error rfl

instance {op : UnaryOp} : Harmless cut (unary op ty) := by
  unfold unary
  repeat' split
  all_goals first | exact .ok | exact .error rfl

instance {source target : Ty} : Harmless cut (conversion source target) := by
  unfold conversion
  dsimp only
  repeat' split
  all_goals first | exact .ok | exact .error rfl

instance {used : List ValueId} {inst : Inst} :
    Harmless cut (interfaceVariable? m used inst) := by
  unfold interfaceVariable?
  split
  · refine .next fun found => ?_
    split <;> infer_instance
  · infer_instance

instance {insts : List InstId} : Harmless cut (lastControl? m insts) := by
  induction insts with
  | nil => exact .pure
  | cons id rest ih =>
    refine .next fun found => ?_
    split <;> infer_instance

instance {hasResults : Bool} {block : BlockId} : Harmless cut (needsBlock m hasResults block) := by
  refine .next fun b => .next fun terminator => ?_
  split
  · infer_instance
  · refine .next fun inst => ?_
    split <;> infer_instance

instance : Harmless cut (Binary.Instruction.takeResult op operands) := by
  unfold Binary.Instruction.takeResult
  split
  · exact .ok
  · split
    · exact .ok
    · exact .error rfl

instance {inst : Binary.Instruction} {slots : List Binary.Slot} : Harmless cut (inst.fill slots operands) := by
  fun_induction Binary.Instruction.fill inst slots operands with
  | case1 | case4 | case6 => exact .ok
  | case2 _ _ _ ih | case3 _ _ _ ih => exact .next fun taken => ih taken.1 taken.2
  | case5 _ _ _ _ _ ih => exact ih

instance : Harmless cut (Binary.Instruction.make op operands) := by
  refine .next fun inst => ?_
  split
  · exact .error rfl
  · exact .ok

instance {declaration : Binary.Instruction} {label : Binary.Word} {params : List Binary.Instruction} :
    Harmless cut (Binary.FunctionCode.start declaration label params) := by
  unfold Binary.FunctionCode.start
  infer_instance

end Lower

/-- The instructions that name something or announce an entry point. -/
@[reducible] def Binary.Opcode.announces : Binary.Opcode → Bool
  | .name | .memberName | .entryPoint => true
  | _ => false

/-- The instructions that stand outside of functions as they name something, announce an entry point, or declare a value
by its type alone. -/
@[reducible] def Binary.Opcode.isOutside : Binary.Opcode → Bool
  | .name | .memberName | .entryPoint | .constantNull | .undef => true
  | _ => false

/-- The instructions that declare a value by its type alone. -/
def Binary.Opcode.isPlaceholder : Binary.Opcode → Bool
  | .constantNull | .undef => true
  | _ => false

theorem Binary.Opcode.inside_iff : op.isOutside = false ↔ op.announces = false ∧ op.isPlaceholder = false := by
  unfold isOutside announces isPlaceholder
  split <;> simp_all

theorem Binary.Opcode.isPlaceholder_of_announces (known : op.announces = true) : op.isPlaceholder = false := by
  unfold announces at known
  split at known
  case h_4 => cases known
  all_goals rfl

/-- The instructions that declare a type of values, or a constant by what it is made of. -/
@[reducible] def Binary.Opcode.declares : Binary.Opcode → Bool
  | .typeVoid | .typeBool | .typeInt | .typeFloat | .typeVector | .typeMatrix | .typeImage | .typeSampler
  | .typeSampledImage | .typeArray | .typeRuntimeArray | .typeStruct | .typePointer
  | .constant | .constantTrue | .constantFalse | .constantComposite => true
  | _ => false

theorem Binary.Opcode.announces_of_declares (known : op.declares = true) : op.announces = false := by
  unfold declares at known
  split at known
  case h_18 => cases known
  all_goals rfl

namespace Selection

open Binary

theorem byNumber_quiet {signed unsigned float : Opcode} (chosen : byNumber ty signed unsigned float = some opcode)
    (each : ∀ op ∈ [signed, unsigned, float], op.isOutside = false) : opcode.isOutside = false := by
  unfold byNumber at chosen
  refine each opcode ?_
  repeat' split at chosen
  all_goals cases chosen
  all_goals simp

theorem binary_quiet {op : BinaryOp} {lhs : Ty} (chosen : binary op ty lhs = .ok opcode) :
    opcode.isOutside = false := by
  have found : binary? op ty lhs = some opcode := by
    unfold binary at chosen
    split at chosen
    · cases chosen
    · cases chosen
    · split at chosen
      · cases chosen
        assumption
      · cases chosen
  cases op with
  | multiply | divide | modulo | lessThan | greaterThan | lessThanEqual | greaterThanEqual =>
    exact byNumber_quiet found (by decide)
  | equal | notEqual =>
    simp only [binary?, byOperand] at found
    split at found
    · cases found
      rfl
    · exact byNumber_quiet found (by decide)
  | add | subtract | xor | shiftLeft | and | or | shiftRight | logicalAnd | logicalOr =>
    simp only [binary?] at found
    repeat' split at found
    all_goals cases found
    all_goals rfl

theorem unary_quiet {op : UnaryOp} (chosen : unary op ty = .ok opcode) : opcode.isOutside = false := by
  unfold unary at chosen
  repeat' split at chosen
  all_goals cases chosen
  all_goals rfl

theorem conversion_quiet {source target : Ty}
    (chosen : conversion source target = .ok (.direct opcode) ∨ conversion source target = .ok (.fromNull opcode)) :
    opcode.isOutside = false := by
  unfold conversion at chosen
  extract_lets sameSize at chosen
  repeat' split at chosen
  all_goals rcases chosen with chosen | chosen
  all_goals cases chosen
  all_goals rfl

theorem builtin?_quiet {fn : BuiltinFn} (chosen : builtin? fn ty = some (.instruction opcode)) :
    opcode.isOutside = false := by
  cases fn with
  | abs | sign | clamp | max | min | extractBits =>
    simp only [builtin?, bySignedResult, byResult] at chosen
    repeat' split at chosen
    all_goals cases chosen
    all_goals rfl
  | _ =>
    cases chosen
    try rfl

theorem target?_quiet {fn : TargetFn} (chosen : target? fn = some opcode) : opcode.isOutside = false := by
  cases fn <;> cases chosen <;> rfl

end Selection

end Shader
