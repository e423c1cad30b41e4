import Shader.Proofs.Binary.Framing
import Shader.Proofs.Lowering.Throughout

/-!
Names and entry points have sections of their own.

An instruction that names something, or announces an entry point, is in the section of names or of entry points: no
other step of a lowering adds one. An instruction that declares a value by its type alone is in the section of
declarations. A function is looked at from its first block on; what is before that is its declaration and its
parameters.
-/
namespace Shader

open Binary List Instruction FunctionCode Assembly

/-- The instructions of a function, from its first block on. -/
def Binary.FunctionCode.inside (code : FunctionCode) : List Instruction := code.locals.toList ++ code.stream

namespace Binary.FunctionCode

variable {code : FunctionCode} {inst other : Instruction}

theorem mem_inside_append (member : other ∈ (code.append inst).inside) : other ∈ code.inside ∨ other = inst := by
  rw [inside, (code.append_others inst).2.2, stream_append, ← append_assoc] at member
  exact (mem_append.mp member).imp_right mem_singleton.mp

theorem mem_inside_addLocals (member : other ∈ (code.addLocals [inst]).inside) :
    other ∈ code.inside ∨ other = inst := by
  have stream : (code.addLocals [inst]).stream = code.stream := rfl
  rw [inside, stream] at member
  simp only [addLocals, Array.toList_append, mem_append, mem_singleton] at member
  rw [inside, mem_append]
  tauto

theorem mem_instructions : inst ∈ code.instructions ↔
    inst = code.declaration ∨ inst ∈ code.params ∨ inst ∈ code.inside ∨ inst = ending := by
  rw [code.instructions_perm.mem_iff, ← inside]
  simp only [cons_append, mem_cons, mem_append, not_mem_nil, or_false, or_assoc]

end Binary.FunctionCode

/-- The instructions outside of the sections of names and of entry points. -/
def Binary.Assembly.others (asm : Assembly) : List Instruction :=
  asm.imports.toList ++ asm.memoryModel.toList ++ asm.executionModes.toList ++ asm.annotations.toList ++
    asm.globals.toList ++ asm.functions.toList.flatMap inside

/-- The instructions outside of the section of declarations. -/
def Binary.Assembly.beside (asm : Assembly) : List Instruction :=
  asm.imports.toList ++ asm.memoryModel.toList ++ asm.entryPoints.toList ++ asm.executionModes.toList ++
    asm.names.toList ++ asm.annotations.toList ++ asm.functions.toList.flatMap inside

/-- The instructions that name something and those that announce entry points. -/
def Binary.Assembly.announced (asm : Assembly) : List Instruction := asm.names.toList ++ asm.entryPoints.toList

/-- The instruction neither names nor announces anything, and is short enough to be written. -/
def Binary.Instruction.Plain (inst : Instruction) : Prop := inst.op.announces = false ∧ inst.wordCount ≤ maxWords

theorem Binary.Instruction.plain_of_make {op : Opcode} {operands : List Operand} {inst : Instruction}
    (made : make op operands = .ok inst) (quiet : op.announces = false) : inst.Plain :=
  ⟨op_of_make made ▸ quiet, (frame_of_make made).2⟩

/-- The instruction may stand in a function. -/
def Binary.Instruction.Inner (inst : Instruction) : Prop := inst.Plain ∧ inst.op.isPlaceholder = false

theorem Binary.Instruction.inner_of_make {op : Opcode} {operands : List Operand} {inst : Instruction}
    (made : make op operands = .ok inst) (inside : op.isOutside = false) : inst.Inner :=
  ⟨plain_of_make made (Opcode.inside_iff.mp inside).1, op_of_make made ▸ (Opcode.inside_iff.mp inside).2⟩

namespace LowerState

/-- What comes in is short enough to be written. Outside of the sections of names and of entry points, it neither names
nor announces anything, and outside of the section of declarations it is no value that is known by its type alone. -/
structure StaysQuiet (s t : LowerState) : Prop where
  out : ∀ inst ∈ t.out.others, inst ∈ s.out.others ∨ (∃ code ∈ s.code, inst ∈ code.inside) ∨ inst.Plain
  beside : ∀ inst ∈ t.out.beside,
    inst ∈ s.out.beside ∨ (∃ code ∈ s.code, inst ∈ code.inside) ∨ inst.op.isPlaceholder = false
  code : ∀ code ∈ t.code, ∀ inst ∈ code.inside, (∃ code ∈ s.code, inst ∈ code.inside) ∨ inst.Inner
  announced : ∀ inst ∈ t.out.announced, inst ∈ s.out.announced ∨ inst.wordCount ≤ maxWords

variable {s t u : LowerState}

theorem StaysQuiet.trans (first : s.StaysQuiet t) (second : t.StaysQuiet u) : s.StaysQuiet u where
  out inst listed := by
    rcases second.out inst listed with listed | ⟨code, held, member⟩ | quiet
    · exact first.out inst listed
    · exact .inr ((first.code code held inst member).imp_right And.left)
    · exact .inr (.inr quiet)
  beside inst listed := by
    rcases second.beside inst listed with listed | ⟨code, held, member⟩ | other
    · exact first.beside inst listed
    · exact .inr ((first.code code held inst member).imp_right And.right)
    · exact .inr (.inr other)
  code code held inst member := by
    rcases second.code code held inst member with ⟨code, held, member⟩ | quiet
    · exact first.code code held inst member
    · exact .inr quiet
  announced inst listed := by
    rcases second.announced inst listed with listed | short
    · exact first.announced inst listed
    · exact .inr short

/-- Another instruction of the function. -/
theorem StaysQuiet.of_code {code after : FunctionCode} {inst : Instruction} (held : s.code = some code)
    (grown : ∀ other ∈ after.inside, other ∈ code.inside ∨ other = inst) (inner : inst.Inner) :
    s.StaysQuiet { s with code := some after } := by
  refine ⟨fun other listed => .inl listed, fun other listed => .inl listed, fun kept same other member => ?_,
    fun other listed => .inl listed⟩
  cases same
  rcases grown other member with member | rfl
  · exact .inl ⟨code, held, member⟩
  · exact .inr inner

end LowerState

namespace Lower

open LowerState

/-- The property of steps that add nothing outside of the sections of names, of entry points and of declarations that
belongs there. -/
abbrev Quietly : Property := Respecting StaysQuiet

section
variable {α κ : Type} {op : Opcode} {operands : List Operand}

instance : Sees StaysQuiet fun s => (s.out.others, s.out.beside, s.out.announced, s.code) where
  same views := by
    simp only [Prod.mk.injEq] at views
    obtain ⟨out, beside, announced, code⟩ := views
    exact ⟨fun _ listed => .inl (out ▸ listed), fun _ listed => .inl (beside ▸ listed),
      fun kept held _ member => .inl ⟨kept, code ▸ held, member⟩, fun _ listed => .inl (announced ▸ listed)⟩
  trans := .trans

theorem quietly_intern {constant : Constant} : Has Quietly (intern constant) :=
  .of_view fun s id t ran => by
    cases ran
    rfl

instance : Basic Quietly where
  __ := (Sees.composes : Composes Quietly)
  fresh := .of_view fun s id t ran => by
    obtain ⟨-, rfl, -⟩ := fresh_run ran
    rfl
  scalar _ := quietly_intern
  require capability := .modify_unseen fun s => by
    dsimp only [pushCapability]
    split <;> rfl

/-- An instruction that names or announces something may be added to the sections for that, and one that declares a
value by its type alone to the section of declarations. -/
theorem quietly_add {part : Section} (fits : op.announces = false ∨ part = .names ∨ part = .entryPoints)
    (declares : op.isPlaceholder = false ∨ part = .globals) : Has Quietly (add part op operands) := by
  refine ⟨fun s u t ran => ?_⟩
  obtain ⟨inst, made, rfl⟩ := add_run ran
  have others : ∀ other ∈ (s.out.append part inst).others, other ∈ s.out.others ∨
      (other = inst ∧ part ≠ .names ∧ part ≠ .entryPoints) := by
    intro other listed
    cases part <;> simp [Assembly.others, Assembly.append] at listed ⊢ <;> grind
  have beside : ∀ other ∈ (s.out.append part inst).beside, other ∈ s.out.beside ∨ (other = inst ∧ part ≠ .globals) := by
    intro other listed
    cases part <;> simp [Assembly.beside, Assembly.append] at listed ⊢ <;> grind
  have announced : ∀ other ∈ (s.out.append part inst).announced, other ∈ s.out.announced ∨ other = inst := by
    intro other listed
    cases part <;> simp [Assembly.announced, Assembly.append] at listed ⊢ <;> grind
  refine ⟨fun other listed => ?_, fun other listed => ?_, fun code held inst member => .inl ⟨code, held, member⟩,
    fun other listed => ?_⟩
  · rcases others other listed with listed | ⟨rfl, notNames, notEntryPoints⟩
    · exact .inl listed
    · have quiet := fits.resolve_right fun apart => apart.elim notNames notEntryPoints
      exact .inr (.inr (plain_of_make made quiet))
  · rcases beside other listed with listed | ⟨rfl, notGlobals⟩
    · exact .inl listed
    · exact .inr (.inr (op_of_make made ▸ declares.resolve_right notGlobals))
  · rcases announced other listed with listed | rfl
    · exact .inl listed
    · exact .inr (frame_of_make made).2

instance : HoldsOverTables Quietly where
  declare _ _ quiet := quietly_add (.inl quiet) (.inr rfl)
  annotate _ _ inside := quietly_add (.inl (Opcode.inside_iff.mp inside).1) (.inl (Opcode.inside_iff.mp inside).2)
  types _ _ := .remember_unseen
  constants _ := .remember_unseen
  nulls _ := .remember_unseen
  undefs _ := .remember_unseen

instance : HoldsOverNames Quietly :=
  ⟨fun _ _ known => quietly_add (.inr (.inl rfl)) (.inl (Opcode.isPlaceholder_of_announces known))⟩

variable {m : Module} {options : Options}

instance : HoldsOverTypes m Quietly :=
  holdsOverTypes_of_names fun _ => .remember_unseen

instance : HoldsOverValues m (fun _ => True) Quietly where
  emit _ _ quiet := ⟨fun s u t ran => by
    obtain ⟨code, inst, held, made, rfl⟩ := emit_run ran
    exact .of_code held (fun _ => mem_inside_append) (inner_of_make made quiet)⟩
  emitLocal _ := ⟨fun s u t ran => by
    obtain ⟨code, inst, held, made, rfl⟩ := emitLocal_run ran
    exact .of_code held (fun _ => mem_inside_addLocals) (inner_of_make made rfl)⟩
  requireExtension name := .modify_unseen fun s => by
    dsimp only [pushExtension]
    split <;> rfl
  labelId _ := .remember_unseen
  mergeId _ := .remember_unseen
  functionId _ := .remember_unseen
  extendedSetId := by
    have imports (operands : List Operand) : Has Quietly (add .imports .extInstImport operands) :=
      quietly_add (.inl rfl) (.inl rfl)
    exact .remember_unseen
  wordConstantId _ := has_wordConstantId
  typeId _ _ := has_typeId
  nullId _ _ := has_nullId
  undefId _ _ := has_undefId
  splats _ _ _ _ _ := has_internSplats fun _ => quietly_intern
  typeOf := has_typeOf_any
  constantId _ := has_constantId
  definedId _ := .remember_unseen
  enterValue _ _ := .modify_unseen fun _ => rfl
  nameResults _ := has_nameResults fun _ => .remember_unseen

instance : DeclaringVariables m options Quietly :=
  ⟨fun _ _ _ => has_declareVariable fun _ _ _ _ => has_declare⟩

instance : HoldsOverFunctions Quietly where
  executionMode _ := quietly_add (.inl rfl) (.inl rfl)
  entryPoint _ := quietly_add (.inr (.inr rfl)) (.inl rfl)
  signatureId _ := .remember_unseen
  start := by
    intro declaration label params code started
    obtain ⟨first, made, same⟩ := bind_eq_ok.mp started
    cases same
    refine ⟨fun s u t ran => ?_⟩
    cases ran
    refine ⟨fun inst listed => .inl listed, fun inst listed => .inl listed, fun code held inst member => .inr ?_,
      fun inst listed => .inl listed⟩
    cases held
    have isFirst : inst = first := by simpa [inside, stream, blocks,
      BasicBlock.instructions] using member
    rw [isFirst]
    exact inner_of_make made rfl
  finish := by
    refine ⟨fun s u t ran => ?_⟩
    cases ran
    cases kept : s.code with
    | none =>
      refine ⟨fun inst listed => .inl ?_, fun inst listed => .inl ?_, fun code held => (by cases held),
        fun inst listed => .inl ?_⟩
      all_goals simpa [kept] using listed
    | some code =>
      have others : (s.out.pushFunction code).others = s.out.others ++ code.inside := by
        simp [others, pushFunction]
      have beside : (s.out.pushFunction code).beside = s.out.beside ++ code.inside := by
        simp [beside, pushFunction]
      simp only [kept, Option.toList_some, foldl_cons, foldl_nil]
      refine ⟨fun inst listed => ?_, fun inst listed => ?_, fun code held => (by cases held),
        fun inst listed => .inl listed⟩
      · exact (mem_append.mp (others ▸ listed)).imp_right fun member => .inl ⟨code, kept, member⟩
      · exact (mem_append.mp (beside ▸ listed)).imp_right fun member => .inl ⟨code, kept, member⟩

end

section
variable {m : Module} {options : Options} {state : LowerState}

section
variable (ran : Ran m options state)
include ran

theorem quiet_of_run : (prepared m).StaysQuiet state := respects_run ran

/-- Only the sections of names and of entry points name or announce anything. -/
theorem staysQuiet_of_run :
    (∀ inst ∈ state.out.others, inst.Plain) ∧ ∀ inst ∈ state.out.announced, inst.wordCount ≤ maxWords := by
  have quiet := quiet_of_run ran
  constructor
  · intro inst listed
    rcases quiet.out inst listed with first | ⟨_, none, _⟩ | plain
    · have isModel : inst = ⟨.memoryModel, none, none, [.literal Addressing.logical, .literal Memory.glsl450]⟩ := by
        simpa [prepared, others] using first
      rw [isModel]
      exact ⟨rfl, by decide⟩
    · cases none
    · exact plain
  · intro inst listed
    rcases quiet.announced inst listed with first | short
    · cases first
    · exact short

/-- Only the section of declarations declares values by their types alone. -/
theorem beside_of_run : ∀ inst ∈ state.out.beside, inst.op.isPlaceholder = false := by
  intro inst listed
  rcases (quiet_of_run ran).beside inst listed with first | ⟨_, none, _⟩ | other
  · have isModel : inst = ⟨.memoryModel, none, none, [.literal Addressing.logical, .literal Memory.glsl450]⟩ := by
      simpa [prepared, beside] using first
    rw [isModel]
    rfl
  · cases none
  · exact other

/-- What is before the first block of a function may stand in a function. -/
theorem inner_of_function {code : FunctionCode} (finished : code ∈ state.out.functions.toList) :
    code.declaration.Inner ∧ ∀ inst ∈ code.params, inst.Inner := by
  obtain ⟨e, lowering⟩ := lowering_of_run ran
  rw [lowering.functions] at finished
  obtain ⟨index, -, function, start, locals, body, opens, -, -, rfl⟩ :=
    forall₂_mem_right lowering.builds.functions finished
  obtain ⟨declaration, params, -⟩ := extend_others (start.addLocals locals) body
  rw [declaration, params]
  obtain ⟨ty, id, signature, -, declared⟩ := opens.declaration
  refine ⟨declared ▸ ⟨⟨rfl, (by decide : 5 ≤ maxWords)⟩, rfl⟩, fun inst member => ?_⟩
  obtain ⟨param, -, ty, id, -, rfl⟩ := forall₂_mem_right opens.params member
  exact ⟨⟨rfl, (by decide : 3 ≤ maxWords)⟩, rfl⟩

/-- The lowered module lists entry points and names at one place each, and everything else neither names nor announces
anything. -/
theorem instructions_split {listed : List Instruction}
    (lists : state.out.instructions = .ok listed) : ∃ before between after,
      listed = before ++ state.out.entryPoints.toList ++ between ++ state.out.names.toList ++ after ∧
        ∀ inst ∈ before ++ between ++ after, inst.Plain := by
  obtain ⟨capabilities, madeCapabilities, rest⟩ := bind_eq_ok.mp lists
  obtain ⟨extensions, madeExtensions, same⟩ := bind_eq_ok.mp rest
  cases same
  have inOthers {inst : Instruction} (other : inst ∈ state.out.others) : inst.Plain :=
    (staysQuiet_of_run ran).1 inst other
  refine ⟨capabilities ++ extensions ++ state.out.imports.toList ++ state.out.memoryModel.toList,
    state.out.executionModes.toList, state.out.annotations.toList ++ state.out.globals.toList ++
      state.out.functions.toList.flatMap instructions, by simp only [append_assoc], ?_⟩
  intro inst member
  simp only [mem_append] at member
  rcases member with (((((member | member) | member) | member) | member) | (member | member) | member)
  on_goal 8 =>
    obtain ⟨code, finished, member⟩ := mem_flatMap.mp member
    obtain ⟨declaration, params⟩ := inner_of_function ran finished
    rcases mem_instructions.mp member with rfl | isParam | within | rfl
    · exact declaration.1
    · exact (params inst isParam).1
    · exact inOthers (mem_append_right _ (mem_flatMap.mpr ⟨code, finished, within⟩))
    · exact ⟨rfl, by decide⟩
  · obtain ⟨capability, -, made⟩ := forall₂_mem_right (mapM_eq_ok.mp madeCapabilities) member
    exact plain_of_make made rfl
  · obtain ⟨name, -, made⟩ := forall₂_mem_right (mapM_eq_ok.mp madeExtensions) member
    exact plain_of_make made rfl
  all_goals exact inOthers (by simp_all [others])

/-- The lowered module declares values by their types alone in its section of declarations. -/
theorem filter_placeholders {listed : List Instruction}
    (lists : state.out.instructions = .ok listed) {op : Opcode} (placeholder : op.isPlaceholder = true) :
    listed.filter (·.op = op) = state.out.globals.toList.filter (·.op = op) := by
  obtain ⟨capabilities, madeCapabilities, rest⟩ := bind_eq_ok.mp lists
  obtain ⟨extensions, madeExtensions, same⟩ := bind_eq_ok.mp rest
  cases same
  have none {part : List Instruction} (other : ∀ inst ∈ part, inst.op.isPlaceholder = false) :
      part.filter (·.op = op) = [] := by
    refine filter_eq_nil_iff.mpr fun inst member here => ?_
    have quiet := other inst member
    rw [of_decide_eq_true here, placeholder] at quiet
    cases quiet
  have beside {inst : Instruction} (member : inst ∈ state.out.beside) : inst.op.isPlaceholder = false :=
    beside_of_run ran inst member
  have before : ∀ inst ∈ capabilities ++ extensions ++ state.out.imports.toList ++ state.out.memoryModel.toList ++
      state.out.entryPoints.toList ++ state.out.executionModes.toList ++ state.out.names.toList ++
      state.out.annotations.toList, inst.op.isPlaceholder = false := by
    intro inst member
    simp only [append_assoc] at member
    rcases mem_append.mp member with member | member
    · obtain ⟨capability, -, made⟩ := forall₂_mem_right (mapM_eq_ok.mp madeCapabilities) member
      exact op_of_make made ▸ rfl
    · rcases mem_append.mp member with member | member
      · obtain ⟨name, -, made⟩ := forall₂_mem_right (mapM_eq_ok.mp madeExtensions) member
        exact op_of_make made ▸ rfl
      · refine beside ?_
        simp only [Assembly.beside, append_assoc]
        simp only [mem_append] at member ⊢
        tauto
  have after : ∀ inst ∈ state.out.functions.toList.flatMap instructions,
      inst.op.isPlaceholder = false := by
    intro inst member
    obtain ⟨code, finished, member⟩ := mem_flatMap.mp member
    obtain ⟨declaration, params⟩ := inner_of_function ran finished
    rcases mem_instructions.mp member with rfl | isParam | within | rfl
    · exact declaration.2
    · exact (params inst isParam).2
    · exact beside (mem_append_right _ (mem_flatMap.mpr ⟨code, finished, within⟩))
    · rfl
  rw [filter_append, filter_append, none before, none after, nil_append, append_nil]

end

end

end Lower
end Shader
