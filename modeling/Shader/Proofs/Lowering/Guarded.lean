import Shader.Proofs.Lowering.Closure

/-!
Steps that do not come to certain failures, as long as something is known of the constants.

Lowering stores constants of its own and looks others up. What is known of the constants has to last when a number is
stored, and then it lasts throughout. The failures that are ruled out are among those of control flow and of going
round in circles; everything else that a step touches cannot lead to them.
-/
namespace Shader.Lower

open Binary Assembly

variable {keep : Pool → Prop} {bad : Failure → Bool} {α β κ : Type} {asm : Assembly} {op : Opcode}
  {operands : List Operand}
  {m : Module}
variable {failure : Failure} {part : Section} {code : FunctionCode} {options : Options}

/-- From a state where `keep` holds of the constants, the step leads to such a state or fails in a way that is not
`bad`. -/
structure Guarded (keep : Pool → Prop) (bad : Failure → Bool) {α : Type} (step : Lower α) : Prop where
  keeps : ∀ {s a t}, keep s.pool → step.run s = .ok (a, t) → keep t.pool
  safe : ∀ {s failure}, keep s.pool → step.run s = .error failure → bad failure = false

/-- The property of steps that are guarded. -/
abbrev Guarding (keep : Pool → Prop) (bad : Failure → Bool) : Property := fun _ step => Guarded keep bad step

/-- Plain failures are allowed, and what is known of the constants lasts when a number is stored. -/
class Guards (keep : Pool → Prop) (bad : Failure → Bool) : Prop where
  plain : ∀ {failure}, failure.isPlain = true → bad failure = false
  scalar : ∀ {pool} value, keep pool → keep (pool.insert (.scalar value)).2

namespace Guarded

variable {next : LowerState → Lower β}

theorem pure (a : α) : Guarded keep bad (pure a) where
  keeps held ran := by
    cases ran
    exact held
  safe _ ran := by cases ran

theorem throw (good : bad failure = false) : Guarded keep bad (throw failure : Lower α) where
  keeps _ ran := by cases ran
  safe _ ran := by
    cases ran
    exact good

theorem set {t : LowerState} (held : keep t.pool) : Guarded keep bad (set t) where
  keeps _ ran := by
    cases ran
    exact held
  safe _ ran := by cases ran

theorem modify {update : LowerState → LowerState} (same : ∀ s, (update s).pool = s.pool) :
    Guarded keep bad (modify update) where
  keeps {s a t} held ran := by
    cases ran
    rwa [same]
  safe _ ran := by cases ran

theorem bind {step : Lower α} {next : α → Lower β} (first : Guarded keep bad step)
    (second : ∀ a, Guarded keep bad (next a)) : Guarded keep bad (step >>= next) where
  keeps {s b u} held ran := by
    rw [StateT.run_bind] at ran
    cases ended : step.run s with
    | error failure => rw [ended] at ran; cases ran
    | ok pair =>
      rw [ended] at ran
      exact (second pair.1).keeps (first.keeps held ended) ran
  safe {s failure} held ran := by
    rw [StateT.run_bind] at ran
    cases ended : step.run s with
    | error other =>
      rw [ended] at ran
      cases ran
      exact first.safe held ended
    | ok pair =>
      rw [ended] at ran
      exact (second pair.1).safe (first.keeps held ended) ran

/-- What is known of the constants may be made more precise at some state. -/
theorem get_bind_of {kept : LowerState → Pool → Prop}
    (start : ∀ s, keep s.pool → kept s s.pool) (back : ∀ s, keep s.pool → ∀ pool, kept s pool → keep pool)
    (second : ∀ s, keep s.pool → Guarded (kept s) bad (next s)) : Guarded keep bad (get >>= next) where
  keeps {s _ _} held ran := back s held _ ((second s held).keeps (start s held) ran)
  safe {s _} held ran := (second s held).safe (start s held) ran

/-- What is read of the state is known of its constants. -/
theorem get_bind (second : ∀ s, keep s.pool → Guarded keep bad (next s)) : Guarded keep bad (get >>= next) :=
  get_bind_of (fun _ held => held) (fun _ _ _ held => held) second

end Guarded

instance {cut : Bool} : Harmless cut (asm.push part op operands) := by
  unfold push
  infer_instance

instance {cut : Bool} : Harmless cut (code.push op operands) := by
  unfold FunctionCode.push
  refine .next fun inst => ?_
  split <;> infer_instance

instance {cut : Bool} : Harmless cut (code.pushLocal operands) := by
  unfold FunctionCode.pushLocal
  infer_instance

theorem guarding_intern {constant : Constant} (lasts : ∀ {pool}, keep pool → keep (pool.insert constant).2) :
    Has (Guarding keep bad) (intern constant) :=
  ⟨.get_bind fun _ held => (Guarded.set (lasts held)).bind fun _ => .pure _⟩

variable [guards : Guards keep bad]

instance : Composes (Guarding keep bad) where
  pure := .pure
  bind := .bind
  get := ⟨fun held ran => by cases ran; exact held, fun _ ran => by cases ran⟩
  throw plain := .throw (guards.plain plain)

instance : Basic (Guarding keep bad) where
  fresh := by
    refine ⟨.get_bind fun s held => ?_⟩
    split
    · refine Guarded.bind (.set ?_) fun _ => .pure _
      exact held
    · exact .throw (guards.plain rfl)
  scalar value := guarding_intern (guards.scalar value)
  require _ := ⟨.modify fun _ => rfl⟩

theorem guarding_remember [DecidableEq κ] {register : Register κ} {key : κ} {make : Lower Word}
    [Has (Guarding keep bad) make]
    (apart : ∀ s table, (register.write table s).pool = s.pool := by exact fun _ _ => rfl) :
    Has (Guarding keep bad) (remember register key make) := by
  have entered (id : Word) : Has (Guarding keep bad) (enter register key id) := ⟨.modify fun _ => apart _ _⟩
  refine .next fun s => ?_
  split <;> infer_instance

instance guarding_add : Has (Guarding keep bad) (add part op operands) :=
  ⟨.get_bind fun _ held => (Has.check : Has (Guarding keep bad) _).has.bind fun _ => .set held⟩

instance : HoldsOverTables (Guarding keep bad) where
  declare _ _ _ := guarding_add
  annotate _ _ _ := guarding_add
  types _ _ := guarding_remember
  constants _ := guarding_remember
  nulls _ := guarding_remember
  undefs _ := guarding_remember

instance : HoldsOverNames (Guarding keep bad) := ⟨fun _ _ _ => guarding_add⟩

instance : HoldsOverTypes m (Guarding keep bad) :=
  holdsOverTypes_of_names fun _ => guarding_remember

instance : HoldsOverCode (Guarding keep bad) where
  emit _ _ _ := by
    refine ⟨.get_bind fun s held => ?_⟩
    split
    · exact .throw (guards.plain rfl)
    · exact (Has.check : Has (Guarding keep bad) _).has.bind fun _ => .set held
  emitLocal _ := by
    refine ⟨.get_bind fun s held => ?_⟩
    split
    · exact .throw (guards.plain rfl)
    · exact (Has.check : Has (Guarding keep bad) _).has.bind fun _ => .set held
  requireExtension _ := ⟨.modify fun _ => rfl⟩
  labelId _ := guarding_remember
  mergeId _ := guarding_remember
  functionId _ := guarding_remember
  extendedSetId := guarding_remember
  wordConstantId _ := has_wordConstantId

/-- What is left to show is that types and constants can be declared, and vectors stored. -/
theorem holdsOverValues_guarding (typed : ∀ ty, Has (Guarding keep bad) (typeId m ty))
    (declared : ∀ constant, Has (Guarding keep bad) (constantId m constant))
    (splats : ∀ ty one zero count, Has (Guarding keep bad) (internSplats ty one zero count)) :
    HoldsOverValues m (fun _ => True) (Guarding keep bad) where
  typeId ty _ := typed ty
  nullId ty _ := has_nullId_of (typed ty.normal)
  undefId ty _ := has_undefId_of (typed ty.normal)
  splats ty one zero count _ := splats ty one zero count
  typeOf := has_typeOf_any
  constantId := declared
  definedId _ := guarding_remember
  enterValue _ _ := ⟨.modify fun _ => rfl⟩
  nameResults _ := has_nameResults fun _ => guarding_remember

instance [HoldsOverValues m (fun _ => True) (Guarding keep bad)] :
    DeclaringVariables m options (Guarding keep bad) :=
  ⟨fun _ _ _ => has_declareVariable fun _ _ _ _ => has_declare⟩

instance : HoldsOverFunctions (Guarding keep bad) where
  executionMode _ := guarding_add
  entryPoint _ := guarding_add
  signatureId _ := guarding_remember
  start _ := ⟨.modify fun _ => rfl⟩
  finish := ⟨.modify fun _ => rfl⟩

section
variable {cut : Bool}

instance : Harmless cut asm.instructions := by
  unfold instructions
  infer_instance

instance : Harmless cut asm.assemble := by
  unfold assemble
  infer_instance

instance : Harmless cut (asm.setMemoryModel op operands) := by
  unfold setMemoryModel
  split
  · exact .error rfl
  · infer_instance

end

/-- A module is lowered without failures that are bad if each of its functions is. -/
theorem guarded_emitModule [HoldsOverValues m (fun _ => True) (Guarding keep bad)]
    (functions : ∀ ref, Has (Guarding keep bad) (emitFunction m options ref)) :
    Guarded keep bad (emitModule m options) := by
  have root : Has (Guarding keep bad) (emitRoot m options) := has_emitRoot
  have rest : Has (Guarding keep bad) (do
      emitRoot m options
      (List.range m.functions.size).forM fun index => emitFunction m options ⟨index⟩) := inferInstance
  have required : Has (Guarding keep bad) (require .shader) := inferInstance
  refine required.has.bind fun _ => .get_bind fun s held => ?_
  refine (Has.check : Has (Guarding keep bad) _).has.bind fun out => (Guarded.set ?_).bind fun _ => rest.has
  exact held

theorem generate_safe (guarded : Guarded keep bad (emitModule m options)) (start : keep m.constants)
    (failed : m.generate options = .error failure) : bad failure = false := by
  rw [Module.generate, Module.lower, bind_assoc] at failed
  cases lowered : (emitModule m options).run { pool := m.constants } with
  | error other =>
    rw [lowered] at failed
    cases failed
    exact guarded.safe start lowered
  | ok pair =>
    rw [lowered] at failed
    dsimp only [bind, Except.bind, pure, Except.pure] at failed
    split at failed
    · cases failed
    · rename_i fault assembled
      cases failed
      have plain := (inferInstance : Harmless false pair.2.out.assemble).fault fault assembled
      exact guards.plain (plain.resolve_right (by simp))

end Shader.Lower
