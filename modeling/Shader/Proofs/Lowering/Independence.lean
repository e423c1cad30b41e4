import Shader.Proofs.Lowering.MirrorConstructs

/-!
The lowered module does not depend on how the entries of a module are numbered.

Ids are taken when something is first referred to, and what is referred to in turn follows the blocks and not the
tables. So a renumbered module has the same words. The branches out of a construct may be listed in another order as
long as no two of them leave from one place; two branches after the same construct do, and then the order shows.
-/
namespace Shader

open List

namespace Lower

open Binary Renumbering

variable {ρ : Renumbering}

section
variable {m other : Module} [alike : Renumbered ρ m other]
variable {function : Function} {options : Options}

theorem follows_function (ref : FuncId) :
    Follows (fun a b => b = ρ.function a) (m.function ref) (other.function ref) := by
  intro function found
  refine ⟨ρ.function function, ?_, rfl⟩
  unfold Module.function at found ⊢
  rw [alike.functions, Array.getElem?_map]
  cases held : m.functions[ref.index]? with
  | none =>
    rw [held] at found
    cases found
  | some held' =>
    rw [held] at found
    cases found
    rfl

theorem follows_rootBlock : Follows (fun a b => b = ρ.blockDef a) m.rootBlock other.rootBlock := by
  have root : ρ.block .root = .root := congrArg BlockId.mk alike.root
  have found := alike.block .root
  rwa [root] at found

theorem follows_childrenOf (id : InstId) :
    Follows (fun a b => b = a.map ρ.block) (m.childrenOf id) (other.childrenOf (ρ.inst id)) :=
  (alike.inst id).bind fun _ _ same => .pure same.children

theorem follows_collectWithin {α β : Type} {visit : BlockId → Except Fault (List α)}
    {visit' : BlockId → Except Fault (List β)} {change : α → β}
    (visits : ∀ block, Follows (fun a b => b = a.map change) (visit block) (visit' (ρ.block block))) (depth : Nat)
    (block : BlockId) : Follows (fun a b => b = a.map change) (m.collectWithin visit depth block)
      (other.collectWithin visit' depth (ρ.block block)) := by
  induction depth generalizing block with
  | zero => exact .error
  | succ depth ih =>
    refine (visits block).bind fun found _ same => ?_
    subst same
    refine (alike.block block).bind fun b _ same => ?_
    subst same
    refine (@Follows.mapM _ _ _ _ _ _ _ (map change) _ _ fun id _ => ?_).bind fun nested _ same => .pure ?_
    · refine (follows_childrenOf id).bind fun children _ same => ?_
      subst same
      refine (Follows.mapM fun child _ => ih child).bind fun lists _ same => .pure ?_
      rw [same, map_flatten]
    · rw [same, map_append, map_flatten]

theorem follows_valuesUsedUnder (block : BlockId) : Follows (fun a b => b = a.map ρ.value) (m.valuesUsedUnder block)
    (other.valuesUsedUnder (ρ.block block)) := by
  unfold Module.valuesUsedUnder Module.collect
  rw [alike.blocks.size]
  refine follows_collectWithin (fun block => ?_) _ block
  refine (alike.block block).bind fun b _ same => ?_
  subst same
  refine (@Follows.mapM _ _ _ _ _ _ _ (map ρ.value) _ _ fun id _ => ?_).bind fun used _ same => .pure ?_
  · refine (alike.inst id).bind fun inst _ same => .pure ?_
    rw [same.operands, filterMap_map, map_filterMap]
    congr 1
    funext value
    cases value <;> rfl
  · rw [same, map_flatten]

theorem follows_interfaceVariable? (used : List ValueId) {inst new : Inst} (same : ρ.SameInst inst new) :
    Follows (fun a b => b = a.map (Prod.map ρ.value ρ.variableDecl)) (interfaceVariable? m used inst)
      (interfaceVariable? other (used.map ρ.value) new) := by
  have listed (result : ValueId) : (used.map ρ.value).contains (ρ.value result) = used.contains result := by
    simp [contains_eq_mem, value_injective.eq_iff]
  obtain ⟨exits, -, rfl⟩ := same
  obtain ⟨kind, results, block⟩ := inst
  cases kind
  case var declaration =>
    cases results with
    | nil => exact .pure rfl
    | cons result rest =>
      refine (alike.value result).bind fun found _ same => ?_
      subst same
      dsimp only [valueDef]
      cases found.ty
      case pointer space store access =>
        refine .pure ?_
        rw [listed]
        split <;> rfl
      all_goals exact .pure rfl
  all_goals exact .pure rfl

instance {used : List ValueId} {entryPoint : Word} {root : InstId} :
    Mirrors ρ Eq (interfaceId m used entryPoint root)
      (interfaceId other (used.map ρ.value) entryPoint (ρ.inst root)) := by
  have found := (alike.inst root).bind fun _ _ same => @follows_interfaceVariable? ρ m other alike used _ _ same
  refine (Mirrors.check found).onto fun found => ?_
  cases found with
  | none => exact .pure
  | some found =>
    obtain ⟨result, declaration⟩ := found
    dsimp only [Option.map, Prod.map]
    rw [variableDecl_attributes]
    infer_instance

omit alike in
instance mirrors_executionModel {id : Word} :
    Mirrors ρ Eq (executionModel function id) (executionModel (ρ.function function) id) := by
  obtain ⟨name, params, returnType, stage, workgroupSize, entry⟩ := function
  cases stage
  case compute => cases workgroupSize <;> (dsimp only [executionModel, Renumbering.function]; infer_instance)
  all_goals
    dsimp only [executionModel, Renumbering.function]
    infer_instance

instance mirrors_emitEntryPoint {id : Word} :
    Mirrors ρ Eq (emitEntryPoint m function id) (emitEntryPoint other (ρ.function function) id) := by
  refine mirrors_executionModel.same fun model => ?_
  refine (Mirrors.check (follows_valuesUsedUnder function.entry)).onto fun used => ?_
  refine (Mirrors.check follows_rootBlock).onto fun root => ?_
  dsimp only [blockDef, Renumbering.function]
  infer_instance

omit alike in
instance {signature : Signature} : Mirrors ρ Eq (signatureId signature) (signatureId signature) :=
  .remember (unmarked_signatures ρ) inferInstance

instance {param : ValueId} :
    Mirrors ρ Eq (emitParameter m param) (emitParameter other (ρ.value param)) := by
  refine mirrors_valueId_ssa.same fun id => ?_
  refine (mirrors_value param).onto fun found => ?_
  refine mirrors_typeId.same fun typeWord => ?_
  refine Mirrors.checkSame.same fun declaration => ?_
  dsimp only [valueDef]
  cases found.name <;> infer_instance

theorem mirrors_startFunction (ref : FuncId) :
    Mirrors ρ (fun a b => b = a.map ρ.function fun code => code) (startFunction m ref) (startFunction other ref) := by
  refine (Mirrors.check (follows_function ref)).onto fun function => ?_
  obtain ⟨name, params, returnType, stage, size, entry⟩ := function
  have started (code : FunctionCode) : Mirrors ρ (fun a b => b = a.map ρ.function fun code => code)
      (pure (⟨name, params, returnType, stage, size, entry⟩, code))
      (pure (⟨name, params.map ρ.value, ρ.ty returnType, stage, size, ρ.block entry⟩, code)) := .returning rfl
  have entryPoint (id : Word) : Mirrors ρ Eq (emitEntryPoint m ⟨name, params, returnType, stage, size, entry⟩ id)
      (emitEntryPoint other ⟨name, params.map ρ.value, ρ.ty returnType, stage, size, ρ.block entry⟩ id) :=
    mirrors_emitEntryPoint
  simp only [Renumbering.function, length_map]
  by_cases many : params.length > maxParameters
  · simp only [if_pos many]
    exact ⟨fun _ ran => by cases ran⟩
  · simp only [if_neg many]
    refine mirrors_functionId.same fun id => ?_
    exact Mirrors.nameId.next fun _ _ _ => .branch

instance mirrors_inFunction {code : FunctionCode} {body body' : Lower Unit} [inside : Mirrors ρ Eq body body'] :
    Mirrors ρ Eq (inFunction code body) (inFunction code body') := by
  have started : Mirrors ρ Eq (modify fun state => { state with code := some code } : Lower Unit)
      (modify fun state => { state with code := some code }) :=
    .modify (fun mirrored => { mirrored with code := rfl }) .refl
  refine started.next fun _ _ _ => inside.next fun _ _ _ => ?_
  refine .modify (fun {s t} mirrored => { mirrored with out := ?_, code := rfl, apart := ?_ }) .refl
  · rw [mirrored.out, mirrored.code]
  · have apart := mirrored.apart
    cases written : s.code <;> exact ⟨apart.1, apart.2⟩

theorem mirrors_emitFunction (order : SameOrder ρ m other) (options : Options) (ref : FuncId) :
    Mirrors ρ Eq (emitFunction m options ref) (emitFunction other options ref) := by
  rw [emitFunction_eq, emitFunction_eq]
  refine (mirrors_startFunction ref).onto fun started => ?_
  obtain ⟨function, code⟩ := started
  have body := (mirrors_emitBodyWithin order options (m.blocks.size + 1) (fun _ => True) {} function.entry).mirrors
  have laid : Mirrors ρ Eq (emitBody m options function.entry)
      (emitBody other options (ρ.function function).entry) := by
    unfold emitBody
    rwa [alike.blocks.size]
  exact mirrors_inFunction

instance : Mirrors ρ Eq (emitRoot m options) (emitRoot other options) := by
  refine (Mirrors.check follows_rootBlock).onto fun root => ?_
  refine .forM fun id _ => (mirrors_inst id).next fun inst _ same => ?_
  obtain ⟨exits, -, rfl⟩ := same
  obtain ⟨kind, results, block⟩ := inst
  cases kind
  case var declaration => exact mirrors_declareVariable
  all_goals exact .fail

theorem mirrored_prepared (once : m.constants.items.toList.Nodup) : ρ.Mirrored (prepared m) (prepared other) where
  pool := ⟨alike.constants, once⟩
  out := rfl
  code := rfl
  types := rfl
  signatures := rfl
  constants := rfl
  nulls := rfl
  undefs := rfl
  values := rfl
  functions := rfl
  labels := rfl
  merges := rfl
  imports := rfl
  apart := ⟨nodup_nil, by simp [LowerState.places, prepared]⟩

theorem lower_of_renumbered (once : m.constants.items.toList.Nodup) (order : SameOrder ρ m other)
    {assembly : Assembly} (lowers : m.lower options = .ok assembly) : other.lower options = .ok assembly := by
  obtain ⟨⟨⟨⟩, state⟩, ran, same⟩ := bind_eq_ok.mp lowers
  cases same
  have each (index : Nat) := mirrors_emitFunction order options ⟨index⟩
  have whole : Mirrors ρ Eq (emitParts m options) (emitParts other options) := by
    unfold emitParts
    rw [alike.functions, Array.size_map]
    infer_instance
  obtain ⟨-, ⟨⟩, state', followed, related, -⟩ := whole.run (mirrored_prepared once) (Ran.parts ran)
  exact bind_eq_ok.mpr ⟨((), state'), (emitModule_run other options).trans followed, congrArg Except.ok related.out⟩

end

/-- A renumbered module is lowered to the same words. -/
theorem generate_renumbered {m other : Module} (alike : Renumbered ρ m other)
    (once : m.constants.items.toList.Nodup) (order : SameOrder ρ m other) {options : Options}
    {lowered : Module.Lowered} (lowers : m.generate options = .ok lowered) : other.generate options = .ok lowered := by
  obtain ⟨assembly, made, rest⟩ := bind_eq_ok.mp lowers
  exact bind_eq_ok.mpr ⟨assembly, lower_of_renumbered once order made, rest⟩

/-- A conditional chooses between a value that is computed before another conditional and a constant. -/
def choosing : Module where
  structs := #[⟨none, [⟨none, .u32, 0⟩], false⟩, ⟨none, [⟨none, .f32, 0⟩], false⟩]
  constants := ⟨#[.scalar (.bool true), .scalar (.u32 1), .scalar (.u32 2)]⟩
  values := #[⟨.u32, none, .result ⟨0⟩⟩, ⟨.u32, none, .result ⟨2⟩⟩,
    ⟨.pointer .privateLocal (.struct ⟨1⟩) .readWrite, none, .result ⟨6⟩⟩]
  insts := #[⟨.conditional ⟨.constant ⟨0⟩, ⟨2⟩, ⟨3⟩, [⟨4⟩, ⟨5⟩]⟩, [⟨0⟩], ⟨1⟩⟩, ⟨.ret none, [], ⟨1⟩⟩,
    ⟨.binary .add (.constant ⟨1⟩) (.constant ⟨1⟩), [⟨1⟩], ⟨2⟩⟩,
    ⟨.conditional ⟨.constant ⟨0⟩, ⟨4⟩, ⟨5⟩, []⟩, [], ⟨2⟩⟩, ⟨.exitIf ⟨0⟩ [.ssa ⟨1⟩], [], ⟨2⟩⟩,
    ⟨.exitIf ⟨0⟩ [.constant ⟨2⟩], [], ⟨3⟩⟩, ⟨.var {}, [⟨2⟩], ⟨0⟩⟩]
  blocks := #[{ insts := [⟨6⟩] }, { insts := [⟨0⟩, ⟨1⟩] }, { insts := [⟨2⟩, ⟨3⟩, ⟨4⟩], parent := some ⟨0⟩ },
    { insts := [⟨5⟩], parent := some ⟨0⟩ }, { parent := some ⟨3⟩ }, { parent := some ⟨3⟩ }]
  functions := #[⟨"f", [], .void, .none, none, ⟨1⟩⟩]

/-- The same with other numbers, and with the branches out of the conditional the other way round. -/
def choosingAgain : Module where
  structs := #[⟨none, [⟨none, .f32, 0⟩], false⟩, ⟨none, [⟨none, .u32, 0⟩], false⟩]
  constants := ⟨#[.scalar (.u32 2), .scalar (.u32 1), .scalar (.bool true)]⟩
  values := #[⟨.pointer .privateLocal (.struct ⟨0⟩) .readWrite, none, .result ⟨6⟩⟩, ⟨.u32, none, .result ⟨2⟩⟩,
    ⟨.u32, none, .result ⟨0⟩⟩]
  insts := #[⟨.conditional ⟨.constant ⟨2⟩, ⟨3⟩, ⟨2⟩, [⟨4⟩, ⟨5⟩]⟩, [⟨2⟩], ⟨1⟩⟩, ⟨.ret none, [], ⟨1⟩⟩,
    ⟨.binary .add (.constant ⟨1⟩) (.constant ⟨1⟩), [⟨1⟩], ⟨3⟩⟩,
    ⟨.conditional ⟨.constant ⟨2⟩, ⟨4⟩, ⟨5⟩, []⟩, [], ⟨3⟩⟩, ⟨.exitIf ⟨0⟩ [.constant ⟨0⟩], [], ⟨2⟩⟩,
    ⟨.exitIf ⟨0⟩ [.ssa ⟨1⟩], [], ⟨3⟩⟩, ⟨.var {}, [⟨0⟩], ⟨0⟩⟩]
  blocks := #[{ insts := [⟨6⟩] }, { insts := [⟨0⟩, ⟨1⟩] }, { insts := [⟨4⟩], parent := some ⟨0⟩ },
    { insts := [⟨2⟩, ⟨3⟩, ⟨5⟩], parent := some ⟨0⟩ }, { parent := some ⟨3⟩ }, { parent := some ⟨3⟩ }]
  functions := #[⟨"f", [], .void, .none, none, ⟨1⟩⟩]

def swaps : Renumbering :=
  ⟨Equiv.swap 0 1, Equiv.swap 0 2, Equiv.swap 0 2, Equiv.swap 4 5, Equiv.swap 2 3⟩

/-- What is to be checked of each entry. -/
theorem permutes_of_entries {α β : Type} {places : Equiv.Perm Nat} {agree : α → β → Prop} {table : Array α}
    {other : Array β} (size : other.size = table.size) (fixed : ∀ index, table.size ≤ index → places index = index)
    (entries : ∀ index < table.size, ∀ entry ∈ table[index]?, ∃ new ∈ other[places index]?, agree entry new) :
    Permutes places agree table other :=
  ⟨size, fixed, fun index entry found => entries index (Array.getElem?_eq_some_iff.mp found).1 entry found⟩

theorem swap_fixed {size first second : Nat} (inside : first < size ∧ second < size) (index : Nat)
    (beyond : size ≤ index) : Equiv.swap first second index = index :=
  Equiv.swap_apply_of_ne_of_ne (by omega) (by omega)

/-- Every construct lists its branches out the other way round. -/
theorem permutes_of_reversed {m other : Module} (size : other.insts.size = m.insts.size)
    (fixed : ∀ index, m.insts.size ≤ index → ρ.insts index = index)
    (entries : ∀ index < m.insts.size, ∀ inst ∈ m.insts[index]?, ∃ new ∈ other.insts[ρ.insts index]?,
      new = ρ.instDef { inst with kind := inst.kind.withExits inst.kind.exits.reverse }) :
    Permutes ρ.insts ρ.SameInst m.insts other.insts := by
  refine permutes_of_entries size fixed fun index bound inst held => ?_
  obtain ⟨new, found, same⟩ := entries index bound inst held
  exact ⟨new, found, _, reverse_perm _, same⟩

theorem choosingAgain_renumbered : Renumbered swaps choosing choosingAgain where
  structs := permutes_of_entries rfl (swap_fixed (by decide)) (by decide)
  constants := permutes_of_entries rfl (swap_fixed (by decide)) (by decide)
  values := permutes_of_entries rfl (swap_fixed (by decide)) (by decide)
  insts := permutes_of_reversed rfl (swap_fixed (by decide)) (by decide)
  blocks := permutes_of_entries rfl (swap_fixed (by decide)) (by decide)
  root := by decide
  functions := by decide +kernel

/-- The branches out of a conditional are in its blocks, and at most one in each. -/
theorem exitsSpread_of_branches {m : Module} {inst : Inst} {c : Conditional} (kind : inst.kind = .conditional c)
    (inside : ∀ exit ∈ c.exits, ∀ branch ∈ m.insts[exit.index]?,
      (branch.block = c.whenTrue ∨ branch.block = c.whenFalse) ∧
      needsBlock m (!inst.results.isEmpty) branch.block = .ok true)
    (apart : ∀ exit ∈ c.exits, ∀ exit' ∈ c.exits, ∀ branch ∈ m.insts[exit.index]?, ∀ branch' ∈ m.insts[exit'.index]?,
      branch.block = branch'.block → exit = exit') : m.ExitsSpread inst := by
  constructor
  · intro exit member branch found
    rw [kind] at member
    obtain ⟨which, needed⟩ := inside exit member branch (Module.inst_eq_ok.mp found)
    exact ⟨_, .branch kind which needed, .refl⟩
  · intro exit member exit' member' branch branch' found found'
    rw [kind] at member member'
    exact apart exit member exit' member' branch (Module.inst_eq_ok.mp found) branch' (Module.inst_eq_ok.mp found')

theorem choosing_exitsApart {inst : Inst} (held : choosing.inst ⟨0⟩ = .ok inst) : choosing.ExitsApart inst := by
  cases held
  have either : ∀ exit ∈ [(⟨4⟩ : InstId), ⟨5⟩], exit = ⟨4⟩ ∨ exit = ⟨5⟩ := by decide
  refine ⟨exitsSpread_of_branches rfl (by decide) (by decide), ?_⟩
  intro exit member exit' member' construct leaves leaves'
  have direct : leavingKey choosing ⟨5⟩ = .ok (.label ⟨3⟩) := by decide
  rcases either exit member with rfl | rfl
  · rcases either exit' member' with rfl | rfl
    · rfl
    · cases direct.symm.trans leaves'
  · cases direct.symm.trans leaves

theorem choosing_sameOrder : SameOrder swaps choosing choosingAgain := by
  have plain : ∀ index < choosing.insts.size, index ≠ 0 → (∀ inst ∈ choosing.insts[index]?, inst.kind.exits = []) ∧
      ∀ new ∈ choosingAgain.insts[Equiv.swap 4 5 index]?, new.kind.exits = [] := by decide
  intro id inst new held found
  obtain ⟨index⟩ := id
  have entry := Module.inst_eq_ok.mp held
  by_cases first : index = 0
  · subst first
    exact .inr (choosing_exitsApart held)
  · obtain ⟨one, two⟩ := plain index (Array.getElem?_eq_some_iff.mp entry).1 first
    rw [one inst entry, two new (Module.inst_eq_ok.mp found)]
    exact .inl rfl

theorem choosing_generate_renumbered : choosing ≠ choosingAgain ∧ ∃ lowered, choosing.generate {} = .ok lowered ∧
    choosingAgain.generate {} = .ok lowered := by
  obtain ⟨lowered, generated⟩ : ∃ lowered, choosing.generate {} = .ok lowered := by decide +kernel
  exact ⟨by decide, lowered, generated,
    generate_renumbered choosingAgain_renumbered (by decide) choosing_sameOrder generated⟩

/-- Both blocks of a conditional go through one and the same conditional before they leave. -/
def meeting (exits : List InstId) : Module where
  constants := ⟨#[.scalar (.bool true), .scalar (.u32 1), .scalar (.u32 2)]⟩
  values := #[⟨.u32, none, .result ⟨0⟩⟩]
  insts := #[⟨.conditional ⟨.constant ⟨0⟩, ⟨2⟩, ⟨3⟩, exits⟩, [⟨0⟩], ⟨1⟩⟩, ⟨.ret none, [], ⟨1⟩⟩,
    ⟨.conditional ⟨.constant ⟨0⟩, ⟨4⟩, ⟨5⟩, []⟩, [], ⟨2⟩⟩, ⟨.exitIf ⟨0⟩ [.constant ⟨1⟩], [], ⟨2⟩⟩,
    ⟨.exitIf ⟨0⟩ [.constant ⟨2⟩], [], ⟨3⟩⟩]
  blocks := #[{}, { insts := [⟨0⟩, ⟨1⟩] }, { insts := [⟨2⟩, ⟨3⟩], parent := some ⟨0⟩ },
    { insts := [⟨2⟩, ⟨4⟩], parent := some ⟨0⟩ }, { parent := some ⟨2⟩ }, { parent := some ⟨2⟩ }]
  functions := #[⟨"f", [], .void, .none, none, ⟨1⟩⟩]

/-- The numbers there are. -/
def unchanged : Renumbering := ⟨Equiv.refl _, Equiv.refl _, Equiv.refl _, Equiv.refl _, Equiv.refl _⟩

theorem meeting_renumbered : Renumbered unchanged (meeting [⟨3⟩, ⟨4⟩]) (meeting [⟨4⟩, ⟨3⟩]) where
  structs := permutes_of_entries rfl (fun _ _ => rfl) (by decide)
  constants := permutes_of_entries rfl (fun _ _ => rfl) (by decide)
  values := permutes_of_entries rfl (fun _ _ => rfl) (by decide)
  insts := permutes_of_reversed rfl (fun _ _ => rfl) (by decide)
  blocks := permutes_of_entries rfl (fun _ _ => rfl) (by decide)
  root := rfl
  functions := by decide +kernel

theorem meeting_exitsSpread {id : InstId} {inst : Inst} (held : (meeting [⟨3⟩, ⟨4⟩]).inst id = .ok inst) :
    (meeting [⟨3⟩, ⟨4⟩]).ExitsSpread inst := by
  have plain : ∀ index < (meeting [⟨3⟩, ⟨4⟩]).insts.size, index ≠ 0 →
      ∀ inst ∈ (meeting [⟨3⟩, ⟨4⟩]).insts[index]?, inst.kind.exits = [] := by decide
  obtain ⟨index⟩ := id
  have entry := Module.inst_eq_ok.mp held
  by_cases first : index = 0
  · subst first
    cases held
    exact exitsSpread_of_branches rfl (by decide) (by decide)
  · have none := plain index (Array.getElem?_eq_some_iff.mp entry).1 first inst entry
    constructor <;> rw [none] <;> simp

/-- The order of the branches shows where they leave from one place, though they are in different blocks. -/
theorem meeting_order_shows : Renumbered unchanged (meeting [⟨3⟩, ⟨4⟩]) (meeting [⟨4⟩, ⟨3⟩]) ∧
      (meeting [⟨3⟩, ⟨4⟩]).constants.items.toList.Nodup ∧
      (∀ id inst, (meeting [⟨3⟩, ⟨4⟩]).inst id = .ok inst → (meeting [⟨3⟩, ⟨4⟩]).ExitsSpread inst) ∧
      ∃ lowered lowered', (meeting [⟨3⟩, ⟨4⟩]).generate {} = .ok lowered ∧
        (meeting [⟨4⟩, ⟨3⟩]).generate {} = .ok lowered' ∧ lowered.words ≠ lowered'.words := by
  obtain ⟨lowered, generated, lowered', generated', differ⟩ : ∃ lowered,
      (meeting [⟨3⟩, ⟨4⟩]).generate {} = .ok lowered ∧
      ∃ lowered', (meeting [⟨4⟩, ⟨3⟩]).generate {} = .ok lowered' ∧ lowered.words ≠ lowered'.words := by
    decide +kernel
  exact ⟨meeting_renumbered, by decide, fun _ _ => meeting_exitsSpread, lowered, lowered', generated, generated',
    differ⟩

end Lower
end Shader
