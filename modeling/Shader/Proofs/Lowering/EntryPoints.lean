import Shader.Proofs.Lowering.Readings

/-!
The entry points of a lowered module.

Functions with a stage are announced as entry points, in order. An entry point lists the input and output variables
that the function refers to itself, in the order they are declared. What the functions it calls refer to is not listed.
-/
namespace Shader.Module

open List

variable {used : List ValueId} {value : ValueId}

/-- The input or output variable that an instruction declares. -/
def ioVariable? (m : Module) (id : InstId) : Option ValueId :=
  match m.inst id with
  | .ok ⟨.var _, result :: _, _⟩ =>
    match m.value result with
    | .ok ⟨.pointer .input _ _, _, _⟩ | .ok ⟨.pointer .output _ _, _, _⟩ => some result
    | _ => none
  | _ => none

/-- The input and output variables of a module, in the order they are declared. -/
def ioVariables (m : Module) : List ValueId := (m.instsOf .root).filterMap m.ioVariable?

/-- An instruction of the function has the value as an operand. -/
def Uses (m : Module) (function : Function) (value : ValueId) : Prop :=
  ∃ block id inst, m.Under function.entry block ∧ id ∈ m.instsOf block ∧ m.inst id = .ok inst ∧
    .ssa value ∈ inst.kind.operands

/-- The functions that are entry points. -/
def staged (m : Module) : List FuncId :=
  ((range m.functions.size).map FuncId.mk).filter fun ref =>
    (m.functions[ref.index]?).any fun function => function.stage ≠ .none

/-- An instruction of the first function calls the second one. -/
def Calls (m : Module) (caller callee : FuncId) : Prop :=
  ∃ function block id inst args, m.function caller = .ok function ∧ m.Under function.entry block ∧
    id ∈ m.instsOf block ∧ m.inst id = .ok inst ∧ inst.kind = .call callee args

variable {m : Module}

theorem mem_valuesUsedIn {block : BlockId} (uses : m.valuesUsedIn block = .ok used) : value ∈ used ↔
      ∃ id inst, id ∈ m.instsOf block ∧ m.inst id = .ok inst ∧ .ssa value ∈ inst.kind.operands := by
  obtain ⟨b, found, rest⟩ := bind_eq_ok.mp uses
  obtain ⟨lists, each, same⟩ := bind_eq_ok.mp rest
  cases same
  have each : Forall₂ (fun id list => ∃ inst, m.inst id = .ok inst ∧
      list = inst.kind.operands.filterMap Value.ssa?) b.insts lists := by
    refine (mapM_eq_ok.mp each).imp fun id list here => ?_
    obtain ⟨inst, held, same⟩ := bind_eq_ok.mp here
    cases same
    exact ⟨inst, held, rfl⟩
  have operand {inst : Inst} : value ∈ inst.kind.operands.filterMap Value.ssa? ↔ .ssa value ∈ inst.kind.operands := by
    rw [mem_filterMap]
    constructor
    · rintro ⟨source, member, same⟩
      cases source with
      | ssa id =>
        cases same
        exact member
      | constant | literal => cases same
    · exact fun member => ⟨_, member, rfl⟩
  rw [instsOf_eq found, mem_flatten]
  constructor
  · rintro ⟨list, listed, member⟩
    obtain ⟨id, isInst, inst, held, rfl⟩ := forall₂_mem_right each listed
    exact ⟨id, inst, isInst, held, operand.mp member⟩
  · rintro ⟨id, inst, isInst, held, member⟩
    obtain ⟨list, listed, inst', held', rfl⟩ := forall₂_mem_right each.flip isInst
    cases held.symm.trans held'
    exact ⟨_, listed, operand.mpr member⟩

theorem mem_valuesUsedUnder {function : Function}
    (uses : m.valuesUsedUnder function.entry = .ok used) : value ∈ used ↔ m.Uses function value := by
  rw [mem_collectWithin uses]
  constructor
  · rintro ⟨block, found, under, visits, member⟩
    obtain ⟨id, inst, isInst, held, operand⟩ := (mem_valuesUsedIn visits).mp member
    exact ⟨block, id, inst, under, isInst, held, operand⟩
  · rintro ⟨block, id, inst, under, isInst, held, operand⟩
    obtain ⟨found, visits⟩ := visited_of_under uses under
    exact ⟨block, found, under, visits, (mem_valuesUsedIn visits).mpr ⟨id, inst, isInst, held, operand⟩⟩

end Shader.Module

namespace Shader.Lower

open Binary List LowerState

/-- No entry point is announced. -/
def KeepsEntryPoints (s t : LowerState) : Prop := t.out.entryPoints = s.out.entryPoints

instance coarse_keepsEntryPoints : Coarse KeepsEntryPoints where
  trans first second := second.trans first
  same same := same.entryPoints

instance : Sees KeepsEntryPoints fun s => s.out.entryPoints where
  same same := same
  trans := coarse_keepsEntryPoints.trans

namespace KeepsEntryPoints

/-- A section other than that of entry points. -/
theorem add {part : Assembly.Section} (other : part ≠ .entryPoints) {op : Opcode} {operands : List Operand} :
    Respects KeepsEntryPoints (add part op operands) := by
  refine ⟨fun s u t ran => ?_⟩
  obtain ⟨inst, -, rfl⟩ := add_run ran
  cases part with
  | entryPoints => exact absurd rfl other
  | imports | executionModes | names | annotations | globals => rfl

instance : HoldsOverTables (Respecting KeepsEntryPoints) where
  declare _ _ _ := add (by decide)
  annotate _ _ _ := add (by decide)
  types _ _ := .remember_unseen
  constants _ := .remember_unseen
  nulls _ := .remember_unseen
  undefs _ := .remember_unseen

instance {m : Module} : HoldsOverTypes m (Respecting KeepsEntryPoints) :=
  holdsOverTypes_of_names fun _ => .remember_unseen

instance steady {m : Module} : Steady m KeepsEntryPoints where
  wordConstantId _ := has_wordConstantId
  typeId _ := has_typeId
  nullId _ := has_nullId
  undefId _ := has_undefId
  constantId _ := has_constantId

instance decorating : Decorating KeepsEntryPoints where
  decorate _ _ _ _ := add (by decide)

instance {m : Module} {options : Options} : HoldsOverVariables m options KeepsEntryPoints :=
  .of_declareGlobal fun _ _ _ _ => add (by decide)

instance emitParameter {m : Module} {param : ValueId} : Respects KeepsEntryPoints (emitParameter m param) := by
  refine .next fun id => .next fun value => .next fun typeWord => .next fun declaration => ?_
  split <;> infer_instance

instance signatureId {signature : Signature} : Respects KeepsEntryPoints (signatureId signature) :=
  .remember_unseen

instance inFunction {start : FunctionCode} {body : Lower Unit} [Respects KeepsEntryPoints body] :
    Respects KeepsEntryPoints (inFunction start body) := by
  unfold Lower.inFunction
  infer_instance

end KeepsEntryPoints

/-- A step outside of functions that succeeds announces what is described, in view of any later state. -/
def Announces {α : Type} (step : Lower α) (described : α → LowerState → List Instruction → Prop) : Prop :=
  ∀ s a t, s.Sound → s.code = none → step.run s = .ok (a, t) → t.Sound ∧ t.code = none ∧ s.Grows t ∧
    ∃ announced, t.out.entryPoints.toList = s.out.entryPoints.toList ++ announced ∧
      ∀ later, t.Grows later → described a later announced

namespace Announces

variable {α β : Type} {step : Lower α} {described : α → LowerState → List Instruction → Prop}
  {whole : β → LowerState → List Instruction → Prop}
variable {next : α → Lower β} {known : α → LowerState → Prop}

theorem mono {weaker : α → LowerState → List Instruction → Prop} (announces : Announces step described)
    (implied : ∀ a later announced, described a later announced → weaker a later announced) :
    Announces step weaker := by
  intro s a t sound outside ran
  obtain ⟨soundAfter, still, grows, announced, listed, holds⟩ := announces s a t sound outside ran
  exact ⟨soundAfter, still, grows, announced, listed, fun later grown => implied a later _ (holds later grown)⟩

theorem bind (first : Announces step described) (second : ∀ a, Announces (next a) fun b later more =>
      ∀ announced, described a later announced → whole b later (announced ++ more)) :
    Announces (step >>= next) whole := by
  intro s b u sound outside ran
  obtain ⟨a, t, ranFirst, ranSecond⟩ := run_bind_eq_ok.mp ran
  obtain ⟨soundBetween, still, grows, announced, listed, holds⟩ := first s a t sound outside ranFirst
  obtain ⟨soundAfter, stillAfter, growsMore, more, listedMore, holdsMore⟩ :=
    second a t b u soundBetween still ranSecond
  refine ⟨soundAfter, stillAfter, grows.trans growsMore, announced ++ more, ?_, fun later grown => ?_⟩
  · rw [listedMore, listed, append_assoc]
  · exact holdsMore later grown announced (holds later (growsMore.trans grown))

/-- A step that announces nothing. -/
theorem quiet [kept : Respects KeepsEntryPoints step] (ensured : EnsuresOutside step fun a L _ => known a L.state) :
    Announces step fun a later announced => announced = [] ∧ known a later := by
  intro s a t sound outside ran
  obtain ⟨soundAfter, still, e, reaches, holds⟩ := ensured s a t sound outside ran
  refine ⟨soundAfter, still, reaches.grows, [], ?_, fun later grown => ⟨rfl, ?_⟩⟩
  · rw [show t.out.entryPoints = s.out.entryPoints from kept.run s a t ran, append_nil]
  · exact holds ⟨later, e.loose⟩ ⟨grown, fun _ held => held⟩

/-- A step that announces nothing comes before another one. -/
theorem after [Respects KeepsEntryPoints step] (gathered : Gathers (fun _ => True) step known)
    (second : ∀ a, Announces (next a) fun b later announced => known a later → whole b later announced) :
    Announces (step >>= next) whole := by
  have known : Ensures step fun a L _ => known a L.state := Ensures.mono gathered fun _ _ _ held => held.2
  refine (quiet (.of_ensures known)).bind fun a => (second a).mono ?_
  rintro b later announced holds _ ⟨rfl, held⟩
  exact holds held

theorem fail_bind {fault : Fault} {next : β → Lower α} : Announces (fail fault >>= next) described := by
  intro s a t _ _ ran
  cases ran

theorem throw_bind {failure : Failure} {next : β → Lower α} : Announces (throw failure >>= next) described := by
  intro s a t _ _ ran
  cases ran

theorem ite {condition : Prop} [Decidable condition] {other : Lower α}
    (yes : condition → Announces step described) (no : ¬condition → Announces other described) :
    Announces (if condition then step else other) described := by
  split
  · exact yes ‹_›
  · exact no ‹_›

theorem forM {f : α → Lower Unit} (list : List α)
    (each : ∀ a ∈ list, Announces (f a) fun _ => described a) :
    Announces (list.forM f) fun _ later announced =>
      ∃ parts, Forall₂ (fun a part => described a later part) list parts ∧ announced = parts.flatten := by
  induction list with
  | nil =>
    intro s _ t sound outside ran
    cases ran
    exact ⟨sound, outside, .refl s, [], by simp, fun _ _ => ⟨[], .nil, rfl⟩⟩
  | cons a as ih =>
    refine (each a (by simp)).bind fun _ => ?_
    refine (ih fun a' member => each a' (by simp [member])).mono ?_
    rintro _ later _ ⟨parts, rest, rfl⟩ first held
    exact ⟨first :: parts, .cons held rest, rfl⟩

/-- The announcement of an entry point. -/
theorem entryPoint (operands : List Operand) : Announces (add .entryPoints .entryPoint operands) fun _ _ announced =>
      ∃ inst, Instruction.make .entryPoint operands = .ok inst ∧ announced = [inst] := by
  intro s a t sound outside ran
  have added : Gathers (fun _ => True) (add .entryPoints .entryPoint operands) fun _ _ => True :=
    gathers_add operands rfl rfl
  obtain ⟨soundAfter, still, e, reaches, -⟩ := EnsuresOutside.of_ensures added s a t sound outside ran
  obtain ⟨inst, made, rfl⟩ := add_run ran
  refine ⟨soundAfter, still, reaches.grows, [inst], ?_, fun _ _ => ⟨inst, made, rfl⟩⟩
  exact Array.toList_push

end Announces

/-- The entry point starts the function and lists the values. -/
def EntryPoint (m : Module) (s : LowerState) (ref : FuncId) (listed : List ValueId) (inst : Instruction) : Prop :=
  ∃ function model start ids, m.function ref = .ok function ∧ (Key.function ref, start) ∈ s.bindings ∧
    Forall₂ (fun value id => (Key.value value, id) ∈ s.bindings) listed ids ∧
    inst = ⟨.entryPoint, none, none, [.literal model, .id start, .text function.name] ++ ids.map .id⟩

/-- The entry point of a function lists those input and output variables that instructions of the function refer to. -/
def ListsUsed (m : Module) (s : LowerState) (ref : FuncId) (inst : Instruction) : Prop :=
  ∃ function listed, m.function ref = .ok function ∧ EntryPoint m s ref listed inst ∧
    listed.Sublist m.ioVariables ∧ ∀ value ∈ m.ioVariables, value ∈ listed ↔ m.Uses function value

/-- What is announced for a function. -/
def Announced (m : Module) (s : LowerState) (ref : FuncId) (announced : List Instruction) : Prop :=
  ∃ function, m.function ref = .ok function ∧
    if function.stage = .none then announced = [] else ∃ inst, announced = [inst] ∧ ListsUsed m s ref inst

variable {m : Module}

/-- Of the variables that instructions declare, those that are used belong to the interface. -/
theorem interfaceVariable?_eq {used : List ValueId} {root : InstId} {inst : Inst}
    {interface : Option (ValueId × Variable)} (held : m.inst root = .ok inst)
    (found : interfaceVariable? m used inst = .ok interface) :
    interface.map Prod.fst = (m.ioVariable? root).filter used.contains := by
  obtain ⟨kind, results, block⟩ := inst
  rw [Module.ioVariable?, held]
  unfold interfaceVariable? at found
  split at found
  · rename_i declaration result isVar named
    cases isVar
    obtain ⟨rest, rfl⟩ := head?_eq_some_iff.mp named
    obtain ⟨value, known, rest⟩ := bind_eq_ok.mp found
    obtain ⟨ty, name, origin⟩ := value
    simp only [known]
    split at rest
    · rename_i space _ _ pointer
      cases pointer
      cases rest
      cases space <;> simp [isInterfaceSpace, Option.filter]
    · cases rest
      rename_i other
      split <;> simp_all
  · cases found
    split <;> simp_all [Inst.result?]

/-- The variables of an interface, and their ids. -/
theorem gathers_interface {used : List ValueId} {start : Word} (roots : List InstId) :
    Gathers (fun _ => True) (roots.mapM (interfaceId m used start)) fun operands s =>
      ∃ ids, operands.flatten = ids.map Operand.id ∧ Forall₂ (fun value id => (Key.value value, id) ∈ s.bindings)
          ((roots.filterMap m.ioVariable?).filter used.contains) ids := by
  refine (Gathers.mapM roots fun root _ => gathers_interfaceId fun _ _ _ _ => trivial).mono fun operands s each => ?_
  induction each with
  | nil => exact ⟨[], rfl, .nil⟩
  | @cons root here roots rest head _ ih =>
    obtain ⟨ids, same, bound⟩ := ih
    obtain ⟨inst, interface, held, found, listed⟩ := head
    have split : ((root :: roots).filterMap m.ioVariable?).filter used.contains =
        ((interface.map Prod.fst).toList ++ (roots.filterMap m.ioVariable?).filter used.contains) := by
      rw [interfaceVariable?_eq held found]
      cases declared : m.ioVariable? root with
      | none => simp [declared]
      | some value => by_cases isUsed : value ∈ used <;> simp [declared, isUsed, Option.filter]
    rw [split, flatten_cons, same]
    cases interface with
    | none =>
      cases listed
      exact ⟨ids, rfl, bound⟩
    | some entry =>
      cases listed with
      | cons here none =>
        cases none
        obtain ⟨id, known, rfl⟩ := here
        exact ⟨id :: ids, rfl, .cons known bound⟩

theorem announces_emitEntryPoint (function : Function) (start : Word) :
    Announces (emitEntryPoint m function start) fun _ later announced => ∃ model used ids,
      m.valuesUsedUnder function.entry = .ok used ∧
      Forall₂ (fun value id => (Key.value value, id) ∈ later.bindings) (m.ioVariables.filter used.contains) ids ∧
      announced = [⟨.entryPoint, none, none, [.literal model, .id start, .text function.name] ++ ids.map .id⟩] := by
  unfold emitEntryPoint
  refine .after (gathers_executionModel function start) fun model => ?_
  refine .after (.check _) fun used => .after (.check _) fun b => .after (gathers_interface b.insts) fun operands => ?_
  refine (Announces.entryPoint _).mono ?_
  rintro _ later _ ⟨inst, made, rfl⟩ ⟨ids, same, bound⟩ root uses -
  refine ⟨model, used, ids, uses, ?_, ?_⟩
  · rwa [Module.ioVariables, Module.instsOf_eq root]
  · rw [Instruction.make_plain rfl rfl made, same]
    change [(⟨.entryPoint, none, none, .literal model :: .id start :: .text function.name ::
      Instruction.classify (some .ids) [] (ids.map .id)⟩ : Instruction)] = _
    rw [Instruction.classify_ids]
    rfl

/-- A step that adds nothing to the function comes before another one. -/
theorem EnsuresOutside.after {α β : Type} {step : Lower α} {known : α → LowerState → Prop}
    (gathered : Gathers (fun _ => True) step known) {next : α → Lower β}
    (second : ∀ a, EnsuresOutside (next a) fun _ _ _ => True) : EnsuresOutside (step >>= next) fun _ _ _ => True :=
  (EnsuresOutside.of_ensures gathered).bind fun a => (second a).mono fun _ _ _ _ _ _ => trivial

theorem announces_emitFunction (options : Options) (ref : FuncId) :
    Announces (emitFunction m options ref) fun _ later => Announced m later ref := by
  unfold emitFunction
  cases found : m.function ref with
  | error fault => exact .fail_bind
  | ok function =>
    rw [check_ok_bind rfl]
    refine .ite (fun _ => .throw_bind) fun _ => ?_
    refine .after (gathers_functionId trivial) fun start => .after (gathers_nameId start _) fun _ => ?_
    extract_lets rest
    have last : Announces (rest ()) fun _ _ announced => announced = [] ∧ True := by
      have body : Respects KeepsEntryPoints (emitBody m options function.entry) := has_emitBodyWithin
      have kept : Respects KeepsEntryPoints (rest ()) :=
        .next fun returnType => .next fun params => .next fun signature => .next fun declaration =>
          .next fun label => .next fun code => KeepsEntryPoints.inFunction
      refine Announces.quiet ?_
      refine .after (gathers_typeId m _) fun returnType => ?_
      refine .after (Gathers.mapM _ fun param _ => gathers_parameter trivial) fun params => ?_
      refine .after (gathers_signatureId _) fun signature => .after (.check _) fun declaration => ?_
      refine .after (gathers_labelId trivial) fun label => .after (.check _) fun code => ?_
      have laid := @ensures_inFunction code _ _ (ensures_functionBody options found) fun L e laid => laid.functions
      exact laid.mono fun _ _ _ _ => trivial
    by_cases stage : function.stage = .none
    · rw [if_neg (by simpa using stage)]
      refine last.mono ?_
      rintro _ later _ ⟨rfl, -⟩ - -
      exact ⟨function, found, by rw [if_pos stage]⟩
    · rw [if_pos stage]
      refine (announces_emitEntryPoint function start).bind fun _ => last.mono ?_
      rintro _ later _ ⟨rfl, -⟩ _ ⟨model, used, ids, uses, bound, rfl⟩ - started
      refine ⟨function, found, ?_⟩
      rw [if_neg stage]
      refine ⟨_, rfl, function, _, found, ⟨function, model, start, ids, found, started, bound, rfl⟩,
        filter_sublist, fun value isVariable => ?_⟩
      simp [isVariable, Module.mem_valuesUsedUnder uses]

/-- The entry points are those of the functions with a stage. -/
theorem listsUsed_of_announced {s : LowerState} {indices : List Nat} {parts : List (List Instruction)}
    (each : Forall₂ (fun index part => Announced m s ⟨index⟩ part) indices parts) :
    Forall₂ (ListsUsed m s) ((indices.map FuncId.mk).filter fun ref =>
      (m.functions[ref.index]?).any fun function => function.stage ≠ .none) parts.flatten := by
  induction each with
  | nil => exact .nil
  | @cons index part indices parts head _ ih =>
    obtain ⟨function, declared, announced⟩ := head
    have known : m.functions[index]? = some function := by
      unfold Module.function at declared
      split at declared
      · cases declared
        assumption
      · cases declared
    split at announced
    · rename_i stage
      subst announced
      rw [map_cons, filter_cons_of_neg (by simp [known, stage])]
      exact ih
    · rename_i stage
      obtain ⟨inst, rfl, lists⟩ := announced
      rw [map_cons, filter_cons_of_pos (by simp [known, stage])]
      exact .cons lists ih

theorem listsUsed_of_run {options : Options} {state : LowerState} (ran : Ran m options state) :
    Forall₂ (ListsUsed m state) m.staged state.out.entryPoints.toList := by
  obtain ⟨⟨⟨⟩, middle⟩, ranRoot, ranFunctions⟩ := bind_eq_ok.mp ran.parts
  obtain ⟨sound, outside, -⟩ :=
    EnsuresOutside.of_ensures (ensures_root options) (prepared m) () middle (prepared_sound m) rfl ranRoot
  have none : KeepsEntryPoints (prepared m) middle := respects_emitRoot.run _ _ _ ranRoot
  obtain ⟨-, -, -, announced, same, holds⟩ := Announces.forM (range m.functions.size)
    (fun index _ => announces_emitFunction options ⟨index⟩) middle () state sound outside ranFunctions
  obtain ⟨parts, each, rfl⟩ := holds state (.refl state)
  rw [same, none]
  exact listsUsed_of_announced each

/-- The functions with a stage are announced as entry points, in order, and each lists the input and output variables
that its own instructions refer to. -/
theorem entryPoints_list_used {options : Options} {state : LowerState}
    (ran : (emitModule m options).run { pool := m.constants } = .ok ((), state)) :
    Forall₂ (ListsUsed m state) m.staged state.out.entryPoints.toList :=
  listsUsed_of_run ran

/-- A fragment that reads its input in one branch of a conditional only, and that writes one of its two outputs. -/
def tinting : Module where
  constants := ⟨#[.scalar (.bool true), .scalar (.f32 0)]⟩
  values := #[⟨.pointer .input .f32 .read, some "shade", .result ⟨0⟩⟩,
    ⟨.pointer .output .f32 .readWrite, none, .result ⟨1⟩⟩,
    ⟨.pointer .output .f32 .readWrite, some "color", .result ⟨2⟩⟩, ⟨.f32, none, .result ⟨4⟩⟩, ⟨.f32, none, .result ⟨3⟩⟩]
  insts := #[⟨.var { attributes := { location := some 0 } }, [⟨0⟩], ⟨0⟩⟩,
    ⟨.var { attributes := { location := some 1 } }, [⟨1⟩], ⟨0⟩⟩,
    ⟨.var { attributes := { location := some 0 } }, [⟨2⟩], ⟨0⟩⟩,
    ⟨.conditional ⟨.constant ⟨0⟩, ⟨2⟩, ⟨3⟩, [⟨5⟩, ⟨6⟩]⟩, [⟨4⟩], ⟨1⟩⟩,
    ⟨.load (.ssa ⟨0⟩), [⟨3⟩], ⟨2⟩⟩, ⟨.exitIf ⟨3⟩ [.ssa ⟨3⟩], [], ⟨2⟩⟩, ⟨.exitIf ⟨3⟩ [.constant ⟨1⟩], [], ⟨3⟩⟩,
    ⟨.store (.ssa ⟨2⟩) (.ssa ⟨4⟩), [], ⟨1⟩⟩, ⟨.ret none, [], ⟨1⟩⟩]
  blocks := #[{ insts := [⟨0⟩, ⟨1⟩, ⟨2⟩] }, { insts := [⟨3⟩, ⟨7⟩, ⟨8⟩] }, { insts := [⟨4⟩, ⟨5⟩], parent := some ⟨3⟩ },
    { insts := [⟨6⟩], parent := some ⟨3⟩ }]
  functions := #[⟨"main", [], .void, .fragment, none, ⟨1⟩⟩]

theorem tinting_lists_used : ∃ state, (emitModule tinting {}).run { pool := tinting.constants } = .ok ((), state) ∧
    state.out.entryPoints.toList.map (·.operands.length) = [5] ∧
    Forall₂ (ListsUsed tinting state) tinting.staged state.out.entryPoints.toList := by
  obtain ⟨⟨⟨⟩, state⟩, ran, lengths⟩ : ∃ pair, (emitModule tinting {}).run { pool := tinting.constants } = .ok pair ∧
      pair.2.out.entryPoints.toList.map (·.operands.length) = [5] := by decide +kernel
  exact ⟨state, ran, lengths, entryPoints_list_used ran⟩

/-- A fragment that leaves it to another function to write its output. -/
def delegating : Module where
  constants := ⟨#[.scalar (.f32 0x3F800000)]⟩
  values := #[⟨.pointer .output .f32 .readWrite, none, .result ⟨0⟩⟩]
  insts := #[⟨.var { attributes := { location := some 0 } }, [⟨0⟩], ⟨0⟩⟩, ⟨.call ⟨1⟩ [], [], ⟨1⟩⟩,
    ⟨.ret none, [], ⟨1⟩⟩, ⟨.store (.ssa ⟨0⟩) (.constant ⟨0⟩), [], ⟨2⟩⟩, ⟨.ret none, [], ⟨2⟩⟩]
  blocks := #[{ insts := [⟨0⟩] }, { insts := [⟨1⟩, ⟨2⟩] }, { insts := [⟨3⟩, ⟨4⟩] }]
  functions := #[⟨"main", [], .void, .fragment, none, ⟨1⟩⟩, ⟨"shade", [], .void, .none, none, ⟨2⟩⟩]

/-- What is used by the functions that an entry point calls need not be listed. -/
theorem delegated_output_unlisted : ¬ ∀ (m : Module) (options : Options) (state : LowerState),
    (emitModule m options).run { pool := m.constants } = .ok ((), state) → ∀ ref ∈ m.staged, ∀ callee function,
      Relation.ReflTransGen m.Calls ref callee → m.function callee = .ok function →
        ∀ value ∈ m.ioVariables, m.Uses function value →
          ∃ inst ∈ state.out.entryPoints.toList, ∃ listed, EntryPoint m state ref listed inst ∧ value ∈ listed := by
  intro covered
  obtain ⟨⟨⟨⟩, state⟩, ran, lengths⟩ : ∃ pair,
      (emitModule delegating {}).run { pool := delegating.constants } = .ok pair ∧
      pair.2.out.entryPoints.toList.map (·.operands.length) = [3] := by decide +kernel
  have calls : delegating.Calls ⟨0⟩ ⟨1⟩ := ⟨_, ⟨1⟩, ⟨1⟩, _, [], rfl, .refl, by decide +kernel, rfl, rfl⟩
  have uses : delegating.Uses ⟨"shade", [], .void, .none, none, ⟨2⟩⟩ ⟨0⟩ :=
    ⟨⟨2⟩, ⟨3⟩, _, .refl, by decide +kernel, rfl, by decide⟩
  obtain ⟨inst, member, listed, ⟨_, model, start, ids, -, -, bound, rfl⟩, isListed⟩ :=
    covered delegating {} state ran ⟨0⟩ (by decide +kernel) ⟨1⟩ _ (.single calls) rfl ⟨0⟩ (by decide +kernel) uses
  have none : ids.length = 0 := by
    have length := mem_map_of_mem (f := fun inst : Instruction => inst.operands.length) member
    rw [lengths] at length
    simpa using length
  rw [length_eq_zero_iff.mp none] at bound
  cases bound
  cases isListed

end Shader.Lower
