import Shader.Proofs.Lowering.Throughout

/-!
What the declarations of a module mean.

Read in order, a declaration of a type says how its literals are read and what its null value is, and a
declaration of a constant says which value it is. Every declaration is read with what those before it mean.
Variables and function types are no part of this: no other declaration refers to one.
-/
namespace Shader.Binary

variable {inst : Instruction}

/-- The id an operand refers to. -/
def Operand.reference? : Operand → Option Word
  | .id word | .scope word | .semantics word => some word
  | .literal _ | .extInst _ | .enumerant .. | .literal64 _ | .text _ => none

/-- The ids an instruction refers to: its result type and the ids among its operands. -/
def Instruction.references (inst : Instruction) : List Word :=
  inst.resultType.toList ++ inst.operands.filterMap Operand.reference?

/-- The ids that a list of instructions defines. -/
def defined (code : List Instruction) : List Word := code.filterMap Instruction.result

/-- Every instruction refers only to ids that instructions before it define. -/
def InOrder (code : List Instruction) : Prop :=
  ∀ before inst after, code = before ++ inst :: after → ∀ id ∈ inst.references, id ∈ defined before

theorem inOrder_nil : InOrder [] := by
  intro before inst after split
  simp at split

theorem InOrder.push {code : List Instruction} (ordered : InOrder code)
    (refers : ∀ id ∈ inst.references, id ∈ defined code) : InOrder (code ++ [inst]) := by
  intro before other after split id member
  rcases List.eq_nil_or_concat after with rfl | ⟨rest, last, rfl⟩
  · obtain ⟨rfl, same⟩ := List.append_inj' split rfl
    cases same
    exact refers id member
  · have cut : code ++ [inst] = (before ++ other :: rest) ++ [last] := by simpa using split
    obtain ⟨rfl, -⟩ := List.append_inj' cut rfl
    exact ordered before other rest rfl id member

theorem Repetition.classify_ids (position : Nat) (ids : List Word) :
    Repetition.ids.classify position (ids.map .id) = ids.map .id := by
  induction ids generalizing position with
  | nil => rfl
  | cons id rest ih =>
    rw [List.map_cons, Repetition.classify]
    exact congrArg (Operand.id id :: ·) (ih (position + 1))

/-- Operands that the grammar takes to be any number of ids. -/
theorem Instruction.classify_ids (ids : List Word) :
    Instruction.classify (some .ids) [] (ids.map .id) = ids.map .id := by
  cases ids with
  | nil => rfl
  | cons id rest => exact Repetition.classify_ids 0 (id :: rest)

/-- The value of a constant: a scalar, or the values of its components. -/
inductive ValueTree where
  | leaf (value : Scalar)
  | node (parts : List ValueTree)

/-- A value with the given components, if all of them are known. -/
def ValueTree.ofParts (parts : List (Option ValueTree)) : Option ValueTree := .node <$> parts.mapM id

theorem ValueTree.ofParts_eq_some {parts : List (Option ValueTree)} {trees : List ValueTree}
    (known : List.Forall₂ (fun part tree => part = some tree) parts trees) :
    ValueTree.ofParts parts = some (.node trees) := by
  have all : parts.mapM id = some trees := by
    induction known with
    | nil => rfl
    | cons head _ ih => simp [head, ih]
  rw [ValueTree.ofParts, all]
  rfl

/-- What an id stands for. A type tells how a literal of it is read, if it has literals, and its null value, if it
has one. -/
inductive Reading where
  | type (literal : Word → Option Scalar) (null : Option ValueTree)
  | constant (type : Word) (value : ValueTree)

namespace Reading

/-- A type whose literals are its values. -/
def number (read : Word → Scalar) : Reading := .type (fun word => some (read word)) (some (.leaf (read 0)))

/-- A type of values with components, given the null value of each. -/
def composite (nulls : List (Option ValueTree)) : Reading := .type (fun _ => none) (ValueTree.ofParts nulls)

end Reading

variable (env : Word → Option Reading)

/-- The null value of a type. -/
def nullOf (ty : Word) : Option ValueTree :=
  match env ty with
  | some (.type _ null) => null
  | _ => none

/-- A literal of a type. -/
def literalOf (ty word : Word) : Option Scalar :=
  match env ty with
  | some (.type literal _) => literal word
  | _ => none

/-- The value of a constant. -/
def valueOf (id : Word) : Option ValueTree :=
  match env id with
  | some (.constant _ value) => some value
  | _ => none

/-- A truth value, as long as its type has truth values. -/
def truth (ty : Word) (value : Bool) : Option ValueTree :=
  match nullOf env ty with
  | some (.leaf (.bool _)) => some (.leaf (.bool value))
  | _ => none

namespace Instruction

/-- The type that an instruction declares. -/
def typeReading (op : Opcode) (operands : List Operand) : Option Reading :=
  match op, operands with
  | .typeBool, [] => some (.type (fun _ => none) (some (.leaf (.bool false))))
  | .typeInt, [.literal width, .literal sign] =>
    if width ≠ 32 then none
    else some (if sign = 0 then .number .u32 else .number fun word => .i32 word.toInt32)
  | .typeFloat, [.literal width] =>
    if width = 32 then some (.number .f32)
    else if width = 16 then some (.number fun word => .f16 word.toUInt16)
    else none
  | .typeVector, [.id part, .literal count] | .typeMatrix, [.id part, .literal count] =>
    some (.composite (.replicate count.toNat (nullOf env part)))
  | .typeArray, [.id part, .id length] =>
    match valueOf env length with
    | some (.leaf (.u32 count)) => some (.composite (.replicate count.toNat (nullOf env part)))
    | _ => none
  | .typeStruct, members => some (.composite ((members.filterMap Operand.reference?).map (nullOf env)))
  | _, _ => none

/-- The value that an instruction declares, of a given type. -/
def valueReading (op : Opcode) (ty : Word) (operands : List Operand) : Option ValueTree :=
  match op with
  | .constantTrue => truth env ty true
  | .constantFalse => truth env ty false
  | .constant =>
    match operands with
    | [.literal word] => ValueTree.leaf <$> literalOf env ty word
    | _ => none
  | .constantComposite => ValueTree.ofParts ((operands.filterMap Operand.reference?).map (valueOf env))
  | .constantNull => nullOf env ty
  | _ => none

/-- What an instruction declares. -/
def reading (inst : Instruction) : Option Reading :=
  match inst.resultType with
  | none => typeReading env inst.op inst.operands
  | some ty => Reading.constant ty <$> valueReading env inst.op ty inst.operands

/-- The id that an instruction declares for others to refer to. -/
def target? (inst : Instruction) : Option Word :=
  if inst.op = .variableDecl ∨ inst.op = .typeFunction then none else inst.result

theorem result_of_target {id : Word} (target : inst.target? = some id) : inst.result = some id := by
  unfold target? at target
  split at target
  · cases target
  · exact target

end Instruction

/-- What the ids mean after another declaration. -/
def readNext (inst : Instruction) : Word → Option Reading :=
  match inst.target? with
  | some id => Function.update env id (inst.reading env)
  | none => env

variable {env}

/-- What the ids mean that a list of instructions declares. -/
def readings (code : List Instruction) : Word → Option Reading := code.foldl readNext fun _ => none

theorem readings_push (code : List Instruction) (inst : Instruction) :
    readings (code ++ [inst]) = readNext (readings code) inst := by
  simp [readings]

/-- An instruction is read with what the ids mean that it refers to. -/
theorem Instruction.reading_congr {other : Word → Option Reading}
    (same : ∀ ref ∈ inst.references, other ref = env ref) : inst.reading other = inst.reading env := by
  obtain ⟨op, ty, result, operands⟩ := inst
  have nulls (ref : Word) (member : ref ∈ operands.filterMap Operand.reference?) :
      nullOf other ref = nullOf env ref := by
    rw [nullOf, nullOf, same ref (List.mem_append_right _ member)]
  have values (ref : Word) (member : ref ∈ operands.filterMap Operand.reference?) :
      valueOf other ref = valueOf env ref := by
    rw [valueOf, valueOf, same ref (List.mem_append_right _ member)]
  cases ty with
  | none =>
    simp only [reading, typeReading]
    split
    case h_4 part count | h_5 part count => rw [nulls part (by simp [Operand.reference?])]
    case h_6 part length =>
      rw [nulls part (by simp [Operand.reference?]), values length (by simp [Operand.reference?])]
    case h_7 => rw [List.map_congr_left nulls]
    all_goals rfl
  | some ty =>
    have typed : other ty = env ty := same ty (by simp [references])
    simp only [reading, valueReading, truth, nullOf, literalOf, typed]
    split
    case h_4 => rw [List.map_congr_left values]
    all_goals rfl

end Shader.Binary
