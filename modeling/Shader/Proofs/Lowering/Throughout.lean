import Shader.Proofs.Lowering.Program

/-!
What holds from one state of a lowering to a later one.

Most of a lowering looks ids up, adds instructions to the function it is in, and leaves the declarations of the
module to a few steps that it calls again and again. A relation between states that those steps respect, and that
does not see the rest, is respected by the lowering of any block. `Respects` is found by walking through the step.
-/
namespace Shader.LowerState

/-- The states have the same declarations, with the same ids, and the same entry points, and the later one may have
taken more ids and stored more constants. -/
structure SameDeclarations (s t : LowerState) : Prop where
  entryPoints : t.out.entryPoints = s.out.entryPoints
  globals : t.out.globals = s.out.globals
  annotations : t.out.annotations = s.out.annotations
  types : t.types = s.types
  signatures : t.signatures = s.signatures
  constants : t.constants = s.constants
  nulls : t.nulls = s.nulls
  undefs : t.undefs = s.undefs
  next : s.out.ids.next.toNat ≤ t.out.ids.next.toNat
  pool : s.pool.Within t.pool

theorem SameDeclarations.refl (s : LowerState) : s.SameDeclarations s :=
  ⟨rfl, rfl, rfl, rfl, rfl, rfl, rfl, rfl, le_rfl, .refl _⟩

end Shader.LowerState

namespace Shader.Lower

open Binary LowerState

variable {s t : LowerState} {id : Word} {κ : Type} {register : Register κ} {key : κ} {make : Lower Word}
  {failure : Failure} {op : Opcode} {operands : List Operand}

theorem fresh_next (ran : fresh.run s = .ok (id, t)) : t.out.ids.next.toNat = s.out.ids.next.toNat + 1 := by
  obtain ⟨-, rfl, room⟩ := fresh_run ran
  have below : s.out.ids.next.toNat ≠ 4294967295 := fun full => room (UInt32.toNat_inj.mp full)
  have bound := s.out.ids.next.toNat_lt
  have one : UInt32.toNat 1 = 1 := rfl
  simp only [UInt32.toNat_add, one]
  omega

theorem remember_of_find? [DecidableEq κ] (found : (register.read s).find? key = some id) :
    (remember register key make).run s = .ok (id, s) := by
  simp only [remember, StateT.run_bind, StateT.run_get, pure_bind, found]
  rfl

theorem remember_of_none [DecidableEq κ] (absent : (register.read s).find? key = none)
    (made : make.run s = .ok (id, t)) :
    (remember register key make).run s = .ok (id, register.write ((register.read t).insert key id) t) := by
  simp only [remember, StateT.run_bind, StateT.run_get, pure_bind, absent, made]
  rfl

theorem remember_of_error [DecidableEq κ] (absent : (register.read s).find? key = none)
    (failed : make.run s = .error failure) : (remember register key make).run s = .error failure := by
  simp only [remember, StateT.run_bind, StateT.run_get, pure_bind, absent, failed]
  rfl

theorem run_bind_ok {α β : Type} {step : Lower α} {next : α → Lower β} {a : α} (ran : step.run s = .ok (a, t)) :
    (step >>= next).run s = (next a).run t := by
  rw [StateT.run_bind, ran]
  rfl

theorem askPool_of_ok {α : Type} {read : Pool → Except Fault α} {a : α} (asked : read s.pool = .ok a) :
    (askPool read).run s = .ok (a, s) := by
  rw [askPool, run_bind_ok (StateT.run_get s), asked]
  rfl

/-- The property that a successful run of a step leads to a state that is related to the one it started in. -/
abbrev Respecting (R : LowerState → LowerState → Prop) : Property := fun _ step =>
  ∀ s a t, step.run s = .ok (a, t) → R s t

abbrev Respects {α : Type} (R : LowerState → LowerState → Prop) (step : Lower α) : Prop := Has (Respecting R) step

/-- A relation that does not see what is no declaration. -/
class Coarse (R : LowerState → LowerState → Prop) : Prop where
  trans : ∀ {s t u}, R s t → R t u → R s u
  same : ∀ {s t}, s.SameDeclarations t → R s t

/-- A relation that sees no more of the states than the view shows. -/
class Sees {ν : outParam Type} (R : LowerState → LowerState → Prop) (view : outParam (LowerState → ν)) : Prop where
  same : ∀ {s t}, view t = view s → R s t
  trans : ∀ {s t u}, R s t → R t u → R s u

/-- A relation that is respected, besides, by the declaration of numbers. -/
class Counting (R : LowerState → LowerState → Prop) : Prop extends Coarse R where
  wordConstantId : ∀ word, Respects R (wordConstantId word)

/-- A relation that is respected, besides, by the steps that declare types and constants. -/
class Steady (m : Module) (R : LowerState → LowerState → Prop) : Prop extends Counting R where
  typeId : ∀ ty, Respects R (typeId m ty)
  nullId : ∀ ty, Respects R (nullId m ty)
  undefId : ∀ ty, Respects R (undefId m ty)
  constantId : ∀ constant, Respects R (constantId m constant)

/-- A relation that is respected, besides, by decorations that do not lay out a type. -/
class Decorating (R : LowerState → LowerState → Prop) : Prop extends Coarse R where
  decorate : ∀ id kind rest, kind ≠ Decoration.arrayStride → Respects R (decorate id (kind :: rest))

/-- A relation that is respected, besides, by the announcement of entry points. -/
class Announcing (R : LowerState → LowerState → Prop) : Prop extends Coarse R where
  entryPoint : ∀ operands, Respects R (add .entryPoints .entryPoint operands)

/-- A relation that is respected by the declaration of function types. -/
class Signing (R : LowerState → LowerState → Prop) : Prop where
  signatureId : ∀ signature, Respects R (signatureId signature)

/-- A relation that is respected by the declaration of variables. -/
class HoldsOverVariables (m : Module) (options : Options) (R : LowerState → LowerState → Prop) : Prop where
  declareVariable : ∀ id inst declaration, Respects R (declareVariable m options id inst declaration)

namespace Respects

variable {α β : Type} {R : LowerState → LowerState → Prop}
variable {step : Lower α} {next : α → Lower β}

theorem run (kept : Respects R step) : ∀ s a t, step.run s = .ok (a, t) → R s t := kept.has

instance fail {fault : Fault} : Respects R (Lower.fail fault : Lower α) :=
  ⟨fun _ _ _ ran => by cases ran⟩

instance throw_bind : Respects R ((MonadExcept.throw failure : Lower α) >>= next) :=
  ⟨fun _ _ _ ran => by cases ran⟩

/-- A relation that holds between a state and itself is respected in a row. -/
theorem composes (refl : ∀ s, R s s) (trans : ∀ {s t u}, R s t → R t u → R s u) : Composes (Respecting R) where
  pure a s b t ran := by
    cases ran
    exact refl _
  bind first second s b u ran := by
    obtain ⟨a, t, ran, rest⟩ := run_bind_eq_ok.mp ran
    exact trans (first s a t ran) (second a t b u rest)
  get s b t ran := by
    cases ran
    exact refl _
  throw _ _ _ _ ran := by cases ran

/-- A register that the relation does not see. -/
theorem remember_of [DecidableEq κ] (refl : ∀ s, R s s) (trans : ∀ {s t u}, R s t → R t u → R s u)
    (unseen : ∀ (s : LowerState) id, R s (register.write ((register.read s).insert key id) s))
    (made : Respects R make) : Respects R (remember register key make) := by
  refine ⟨fun s id t ran => ?_⟩
  rcases remember_run ran with ⟨-, rfl⟩ | ⟨-, middle, ranMake, rfl⟩
  · exact refl _
  · exact trans (made.run s id middle ranMake) (unseen ..)

end Respects

section
variable {α ν : Type} {R : LowerState → LowerState → Prop} {step : Lower α} {view : LowerState → ν} [sees : Sees R view]

include sees in
theorem Sees.composes : Composes (Respecting R) := Respects.composes (fun _ => sees.same rfl) sees.trans

theorem Has.of_view (same : ∀ s a t, step.run s = .ok (a, t) → view t = view s) : Respects R step :=
  ⟨fun s a t ran => sees.same (same s a t ran)⟩

theorem Has.modify_unseen {change : LowerState → LowerState} (unseen : ∀ s, view (change s) = view s) :
    Respects R (modify change : Lower Unit) :=
  .of_view fun s u t ran => by cases ran; exact unseen s

theorem Has.remember_unseen [DecidableEq κ] [made : Respects R make]
    (unseen : ∀ s table, view (register.write table s) = view s := by exact fun _ _ => rfl) :
    Respects R (remember register key make) :=
  Respects.remember_of (fun _ => sees.same rfl) sees.trans (fun s _ => sees.same (unseen s _)) made

end

namespace Respects

variable {α : Type} {R : LowerState → LowerState → Prop} {step : Lower α} [coarse : Coarse R]

theorem of_same (same : ∀ s a t, step.run s = .ok (a, t) → s.SameDeclarations t) : Respects R step :=
  ⟨fun s a t ran => coarse.same (same s a t ran)⟩

instance : Composes (Respecting R) := composes (fun _ => coarse.same (.refl _)) coarse.trans

instance check {outcome : Except Fault α} : Respects R (Lower.check outcome) := by
  cases outcome with
  | error fault => exact fail
  | ok a => exact Has.pure

instance fresh : Respects R fresh := by
  refine of_same fun s id t ran => ?_
  have next := fresh_next ran
  obtain ⟨-, rfl, -⟩ := fresh_run ran
  exact { SameDeclarations.refl s with next := by omega }

instance emit : Respects R (emit op operands) := by
  refine of_same fun s u t ran => ?_
  obtain ⟨code, inst, -, -, rfl⟩ := emit_run ran
  exact { SameDeclarations.refl s with }

instance emitLocal : Respects R (emitLocal operands) := by
  refine of_same fun s u t ran => ?_
  obtain ⟨code, inst, -, -, rfl⟩ := emitLocal_run ran
  exact { SameDeclarations.refl s with }

/-- A section other than those of entry points, of declarations and of their decorations. -/
theorem add {part : Assembly.Section} (other : part ≠ .entryPoints ∧ part ≠ .globals ∧ part ≠ .annotations) :
    Respects R (add part op operands) := by
  refine of_same fun s u t ran => ?_
  obtain ⟨inst, -, rfl⟩ := add_run ran
  cases part with
  | entryPoints => exact absurd rfl other.1
  | globals => exact absurd rfl other.2.1
  | annotations => exact absurd rfl other.2.2
  | imports | executionModes | names => exact { SameDeclarations.refl s with }

instance imports : Respects R (Lower.add .imports op operands) :=
  add (by decide)

instance executionModes : Respects R (Lower.add .executionModes op operands) := add (by decide)

instance names : Respects R (Lower.add .names op operands) :=
  add (by decide)

instance nameId {name : String} : Respects R (nameId id name) := names

theorem modify {change : LowerState → LowerState} (same : ∀ s : LowerState, s.SameDeclarations (change s)) :
    Respects R (modify change : Lower Unit) :=
  of_same fun s u t ran => by cases ran; exact same s

instance require {capability : Capability} : Respects R (require capability) := by
  refine modify fun s => ?_
  unfold Assembly.pushCapability
  split <;> exact { SameDeclarations.refl s with }

instance requireExtension {name : String} : Respects R (requireExtension name) := by
  refine modify fun s => ?_
  unfold Assembly.pushExtension
  split <;> exact { SameDeclarations.refl s with }

instance intern {constant : Constant} : Respects R (intern constant) := by
  refine of_same fun s id t ran => ?_
  cases ran
  exact { SameDeclarations.refl s with pool := Pool.within_insert s.pool constant }

/-- A register that holds no ids of declarations. -/
theorem remember [DecidableEq κ] (apart : ∀ (s : LowerState) table, s.SameDeclarations (register.write table s))
    [Respects R make] : Respects R (remember register key make) :=
  remember_of (fun _ => coarse.same (.refl _)) coarse.trans (fun s _ => coarse.same (apart s _)) inferInstance

end Respects

variable {R : LowerState → LowerState → Prop}

section
variable [Coarse R] {inst : Inst} {value : Value} {result : ValueId} {id : InstId}

instance respects_labelId {block : BlockId} : Respects R (labelId block) :=
  .remember fun s _ => { SameDeclarations.refl s with }

instance respects_mergeId {construct : InstId} : Respects R (mergeId construct) :=
  .remember fun s _ => { SameDeclarations.refl s with }

instance respects_functionId {function : FuncId} : Respects R (functionId function) :=
  .remember fun s _ => { SameDeclarations.refl s with }

instance respects_extendedSetId : Respects R extendedSetId :=
  .remember fun s _ => { SameDeclarations.refl s with }

instance respects_enter_values {id : Word} : Respects R (enter .values result id) :=
  .modify fun s => { SameDeclarations.refl s with }

instance respects_start {code : FunctionCode} :
    Respects R (modify fun state => { state with code := some code } : Lower Unit) :=
  .modify fun s => { SameDeclarations.refl s with }

instance respects_finish : Respects R (modify fun state =>
    { state with code := none, out := state.code.toList.foldl Assembly.pushFunction state.out } : Lower Unit) := by
  refine .modify fun s => ?_
  cases s.code <;> exact { SameDeclarations.refl s with }

theorem respects_definedId {m : Module} {value : ValueId} : Respects R (valueId m (.ssa value)) :=
  .remember fun s _ => { SameDeclarations.refl s with }

instance : HoldsOverModes (Respecting R) := ⟨fun _ => Respects.executionModes⟩

end

instance [Coarse R] : Basic (Respecting R) where
  fresh := Respects.fresh
  scalar _ := Respects.intern
  require _ := Respects.require

instance : Tolerant (Respecting R) := ⟨fun _ => Respects.fail⟩

instance : Cut (Respecting R) := ⟨Respects.fail⟩

instance [Coarse R] : HoldsOverNames (Respecting R) :=
  ⟨fun _ _ _ => Respects.add (by decide)⟩

instance [decorating : Decorating R] : HoldsOverDecorations (Respecting R) :=
  ⟨decorating.decorate⟩

section
variable {m : Module} {options : Options} [steady : Steady m R]

instance : HoldsOverValues m (fun _ => True) (Respecting R) where
  emit _ _ _ := Respects.emit
  emitLocal _ := Respects.emitLocal
  requireExtension _ := Respects.requireExtension
  labelId _ := respects_labelId
  mergeId _ := respects_mergeId
  functionId _ := respects_functionId
  extendedSetId := respects_extendedSetId
  wordConstantId := steady.wordConstantId
  typeId ty _ := steady.typeId ty
  nullId ty _ := steady.nullId ty
  undefId ty _ := steady.undefId ty
  splats _ _ _ _ _ := has_internSplats fun _ => Respects.intern
  typeOf := has_typeOf_any
  constantId := steady.constantId
  definedId _ := respects_definedId
  enterValue _ _ := respects_enter_values
  nameResults _ := has_nameResults fun _ => respects_definedId

/-- Variables need no more than that those of the whole module are declared. -/
theorem HoldsOverVariables.of_declareGlobal [Decorating R]
    (global : ∀ word typeWord storage initializer, Respects R (declareGlobal word typeWord storage initializer)) :
    HoldsOverVariables m options R :=
  ⟨fun _ _ _ => has_declareVariable fun _ _ _ _ => global ..⟩

instance [declared : HoldsOverVariables m options R] :
    DeclaringVariables m options (Respecting R) :=
  ⟨declared.declareVariable⟩

instance respects_emitRoot [HoldsOverVariables m options R] : Respects R (emitRoot m options) := has_emitRoot

instance {used : List ValueId} {entryPoint : Word} {root : InstId} :
    Respects R (interfaceId m used entryPoint root) := by
  refine .next fun found => ?_
  split <;> infer_instance

instance [announcing : Announcing R] {function : Function} :
    Respects R (emitEntryPoint m function id) := by
  have announced (operands : List Operand) := announcing.entryPoint operands
  unfold emitEntryPoint
  infer_instance

end

instance [announcing : Announcing R] [signing : Signing R] :
    HoldsOverFunctions (Respecting R) where
  entryPoint := announcing.entryPoint
  signatureId := signing.signatureId
  start _ := respects_start
  finish := respects_finish

/-- A whole lowering leads to a state that is related to the one it started in. -/
theorem respects_run {m : Module} {options : Options} {state : LowerState} {among : Ty → Prop}
    [HoldsOverValues m among (Respecting R)] [DeclaringVariables m options (Respecting R)]
    [HoldsOverFunctions (Respecting R)] [HoldsOverNames (Respecting R)] (ran : Ran m options state) :
    R (prepared m) state := by
  have root : Respects R (emitRoot m options) := has_emitRoot
  have functions (ref : FuncId) : Respects R (emitFunction m options ref) :=
    has_emitFunction fun _ _ => has_emitBodyWithin
  have whole : Respects R (emitParts m options) := inferInstance
  exact whole.run (prepared m) () state ran.parts

end Shader.Lower
