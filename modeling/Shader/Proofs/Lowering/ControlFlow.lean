import Shader.Proofs.Builder.Aimed
import Shader.Proofs.Lowering.Guarded

/-!
The lowering of a finished module finds no fault with its control flow.

What lowering needs to know about a branch it takes from the construct that it is inside of: the labels of the nearest
constructs are passed on from block to block. A block has one owner, so on the way down to a branch lowering passes
every construct that is around the branch, and sets the labels that the branch goes to. The branches whose values are
joined are those that building registered, and these are in their blocks.
-/
namespace Shader

open Binary List Lower

variable {m : Module} {id : InstId} {block : BlockId} {kind : Kind} {found : ConstructKind × List InstId}
variable {child outer : BlockId} {construct : InstId}

namespace Module

/-- What is left to those who build a module: branches are inside of the constructs they name and bring a value for
each result and parameter, and switches have one default case and select by integers. -/
structure Completed (m : Module) : Prop where
  inside : ∀ {id inst target}, m.inst id = .ok inst → inst.kind.target? = some target →
    ∃ child ∈ m.blocksOf target, m.Under child inst.block
  results : ∀ {id inst expected target construct}, m.inst id = .ok inst → inst.kind.leaves? = some (expected, target) →
    m.inst target = .ok construct → construct.results.length ≤ inst.kind.exitArgs.length
  params : ∀ {id inst block b}, m.inst id = .ok inst → m.goesTo? inst.kind = some block → m.block block = .ok b →
    b.params.length ≤ inst.kind.branchArgs.length
  default : ∀ {id inst s}, m.inst id = .ok inst → inst.kind = .switch s → (s.cases.filter Case.isDefault).length = 1
  selectors : ∀ {id inst s case constant}, m.inst id = .ok inst → inst.kind = .switch s → case ∈ s.cases →
    Selector.value constant ∈ case.selectors → (∃ value, m.constants.get constant = .ok (.scalar (.i32 value))) ∨
      ∃ value, m.constants.get constant = .ok (.scalar (.u32 value))

end Module

namespace Lower

/-- The labels of all constructs around the block are there. -/
def Scopes.Cover (m : Module) (scopes : Scopes) (block : BlockId) : Prop :=
  ∀ construct child sort, child ∈ m.blocksOf construct → m.Under child block → m.sortOf? construct = some sort →
    scopes.Has sort

end Lower

namespace Module

variable {m : Module}

section
variable (built : m.WellBuilt)
include built

theorem WellBuilt.home_of_listed (listed : id ∈ m.instsOf block) : m.home? id = some block := by
  by_contra other
  have none := built.insts id block
  rw [if_neg other, count_eq_zero] at none
  exact none listed

theorem WellBuilt.listed_of_home (home : m.home? id = some block) : id ∈ m.instsOf block := by
  have one := built.insts id block
  rw [if_pos home] at one
  exact count_pos_iff.mp (by omega)

theorem parent?_of_blocksOf (owned : block ∈ m.blocksOf id) : m.parent? block = some (some id) := by
  obtain ⟨inst, held, owned⟩ := exists_of_mem_blocksOf owned
  exact built.parents (Option.map_eq_some_iff.mpr ⟨inst, inst_eq_ok.mp held, rfl⟩) block owned

/-- The constructs around a block of a construct are that one and those around it. -/
theorem under_child {home : BlockId} {other : InstId} (listed : id ∈ m.instsOf home)
    (owned : child ∈ m.blocksOf id) (around : outer ∈ m.blocksOf other) (under : m.Under outer child) :
    other = id ∨ m.Under outer home := by
  rcases under.last with rfl | ⟨block, holder, above, holds⟩
  · have same := (parent?_of_blocksOf built owned).symm.trans (parent?_of_blocksOf built around)
    exact .inl (by simpa using same.symm)
  · have same := (parent?_of_blocksOf built owned).symm.trans (parent?_of_blocksOf built holds.block)
    obtain rfl : id = holder := by simpa using same
    have homes := (built.home_of_listed listed).symm.trans (built.home_of_listed holds.inst)
    obtain rfl : home = block := by simpa using homes
    exact .inr above

/-- No construct is around the block that a function starts in. -/
theorem not_under_entry {ref : FuncId} {function : Function}
    (declared : m.function ref = .ok function) (around : outer ∈ m.blocksOf id) :
    ¬ m.Under outer function.entry := by
  have free {id : InstId} (owned : function.entry ∈ m.blocksOf id) : False := by
    have starts : function.entry ∈ m.entries :=
      mem_map_of_mem (Array.mem_toList_iff.mpr (Array.mem_of_getElem? (function_eq_ok.mp declared)))
    have once := nodup_append.mp built.blocks
    obtain ⟨inst, held, owned⟩ := exists_of_mem_blocksOf owned
    have listed := Array.mem_toList_iff.mpr (Array.mem_of_getElem? (inst_eq_ok.mp held))
    exact once.2.2 _ (mem_cons_of_mem _ starts) _ (mem_flatMap.mpr ⟨inst, listed, owned⟩) rfl
  intro under
  rcases under.last with rfl | ⟨block, holder, -, holds⟩
  · exact free around
  · exact free holds.block

end

/-- The instructions that are selected. -/
theorem mem_select {chosen : Kind → Bool} :
    id ∈ m.select chosen ↔ ∃ kind, m.kind? id = some kind ∧ chosen kind = true := by
  rw [select, mem_filter, Option.any_eq_true]
  constructor
  · exact And.right
  · rintro ⟨kind, held, isChosen⟩
    exact ⟨mem_map.mpr ⟨id.index, mem_range.mpr (lt_of_kind? held), rfl⟩, kind, held, isChosen⟩

/-- A branch that a block lists goes on there. -/
theorem WellBuilt.goesTo_of_inbound (built : m.WellBuilt) {b : Block} {inst : Inst} (found : m.block block = .ok b)
    (inbound : id ∈ b.inbound) (held : m.inst id = .ok inst) : m.goesTo? inst.kind = some block := by
  rw [built.inbound (Option.map_eq_some_iff.mpr ⟨b, block_eq_ok.mp found, rfl⟩), mem_select] at inbound
  obtain ⟨kind, isKind, goes⟩ := inbound
  cases (kind?_eq held).symm.trans isKind
  exact of_decide_eq_true goes

/-- A branch that a construct lists leaves it. -/
theorem WellBuilt.leaves_of_exit (built : m.WellBuilt) {inst : Inst}
    (isKind : m.kind? construct = some kind) (listed : kind.construct? = some found) (exit : id ∈ found.2)
    (held : m.inst id = .ok inst) : inst.kind.leaves? = some (found.1, construct) := by
  rw [built.exits isKind found listed, mem_select] at exit
  obtain ⟨kind, isKind, leaves⟩ := exit
  cases (kind?_eq held).symm.trans isKind
  exact of_decide_eq_true leaves

end Module

namespace Lower

variable {m : Module} {scopes inner : Scopes} {block : BlockId}

/-- On the way into a construct its labels come in. -/
theorem Scopes.Cover.enter (cover : scopes.Cover m block) (built : m.WellBuilt)
    {sort : ConstructKind} (listed : id ∈ m.instsOf block) (isSort : m.sortOf? id = some sort)
    (adds : scopes.Adds sort inner) (owned : child ∈ m.blocksOf id) : inner.Cover m child := by
  intro construct outer other around under isOther
  rw [adds other]
  rcases Module.under_child built listed owned around under with rfl | above
  · exact .inr (Option.some.inj (isOther.symm.trans isSort))
  · exact .inl (cover construct outer other around above isOther)

/-- The step finds no fault with the control flow once the constants of the module are stored. -/
abbrev Calmly (m : Module) : Property := Guarding (m.constants.Within ·) Failure.ofControlFlow

abbrev Calms (m : Module) {α : Type} (step : Lower α) : Prop := Has (Calmly m) step

instance : Guards (m.constants.Within ·) Failure.ofControlFlow where
  plain {failure} plain := by
    cases failure with
    | fault cause => cases cause <;> first | rfl | cases plain
    | tooManyParameters | idsExhausted => rfl
  scalar {pool} value within := within.trans (pool.within_insert _)

instance cut_calmly : Cut (Calmly m) := ⟨⟨.throw rfl⟩⟩

instance : HoldsOverValues m (fun _ => True) (Calmly m) :=
  holdsOverValues_guarding (fun _ => has_typeId) (fun _ => has_constantId) fun _ _ _ _ =>
    has_internSplats fun _ => guarding_intern fun {pool} within => within.trans (pool.within_insert _)

section
variable {id : InstId} {inst : Inst}

theorem calm_targetLabel {label : Option Word} (there : label.isSome) : Calms m (targetLabel label kind id) := by
  obtain ⟨word, rfl⟩ := Option.isSome_iff_exists.mp there
  exact Has.pure

section
variable (built : m.WellBuilt)
include built

/-- A branch is in the block that it says it is in. -/
theorem calm_leavingLabel : Calms m (leavingLabel m id) := by
  refine .check_next fun branch held => .check_next fun b found => ?_
  have listed : id ∈ b.insts := by
    rw [← Module.instsOf_eq found]
    exact built.listed_of_home (Option.map_eq_some_iff.mpr ⟨branch, Module.inst_eq_ok.mp held, rfl⟩)
  have before : before? b.insts id = some (b.insts.takeWhile (· ≠ id)) := if_pos (by simpa using listed)
  simp only [before]
  refine .next fun construct => ?_
  split <;> infer_instance

theorem calm_incoming (completed : m.Completed) {b : Block} {index : Nat} {branch : InstId}
    (found : m.block block = .ok b) (within : index < b.params.length) (inbound : branch ∈ b.inbound) :
    Calms m (incoming m block index branch) := by
  have leaving : Calms m (leavingLabel m branch) := calm_leavingLabel built
  refine .check_next fun inst held => ?_
  have enough := completed.params held (built.goesTo_of_inbound found inbound held) found
  rw [getElem?_eq_getElem (by omega)]
  infer_instance

theorem calm_emitIncomingPhis (completed : m.Completed) : Calms m (emitIncomingPhis m block) := by
  refine .check_next fun b found => .forM_of fun (param, index) listed => ?_
  have within : index < b.params.length := (mem_zipIdx' listed).1
  have each : Calms m (b.inbound.mapM (incoming m block index)) :=
    .mapM_of fun branch inbound => calm_incoming built completed found within inbound
  infer_instance

theorem calm_outgoing (completed : m.Completed) {exit : InstId} {index : Nat}
    (held : m.inst construct = .ok inst) (listed : inst.kind.construct? = some found) (isExit : exit ∈ found.2)
    (within : index < inst.results.length) : Calms m (outgoing m construct index exit) := by
  have leaving : Calms m (leavingLabel m exit) := calm_leavingLabel built
  refine .check_next fun branch isBranch => ?_
  have enough := completed.results isBranch (built.leaves_of_exit (Module.kind?_eq held) listed isExit isBranch) held
  rw [getElem?_eq_getElem (by omega)]
  infer_instance

theorem calm_emitExitPhis (completed : m.Completed) {implicit : List BlockId}
    (held : m.inst id = .ok inst) (listed : inst.kind.construct? = some found) :
    Calms m (emitExitPhis m id inst found.2 implicit) := by
  refine .forM_of fun (result, index) member => ?_
  have within : index < inst.results.length := (mem_zipIdx' member).1
  have each : Calms m (found.2.mapM (outgoing m id index)) :=
    .mapM_of fun exit isExit => calm_outgoing built completed held listed isExit within
  have explicit (branch : Word × Value) :
      Calms m (do return [Operand.id (← valueId m branch.2), .id branch.1]) := inferInstance
  exact .next fun _ => .next fun _ => .next fun _ => inferInstance

end

/-- A branch finds the labels it goes to where those of the construct are there. -/
theorem calm_emitTerminator
    (has : ∀ sort target, kind.aims? = some (sort, target) → scopes.Has sort ∧ m.sortOf? target = some sort) :
    Calms m (emitTerminator m scopes id kind) := by
  have label {label : Option Word} {kind : Kind} (there : label.isSome) :
      Calms m (targetLabel label kind id) := calm_targetLabel there
  unfold emitTerminator
  split
  case h_3 condition target _ _ =>
    obtain ⟨⟨header, merge⟩, -⟩ := has .loop target rfl
    exact .next fun _ => @Has.bind _ _ _ _ _ _ (label merge) fun _ => @Has.bind _ _ _ _ _ _ (label header) inferInstance
  case h_4 target args =>
    obtain ⟨-, isLoop⟩ := has .loop target rfl
    refine .check_next fun inst held => ?_
    rw [Module.sortOf?, Module.kind?_eq held] at isLoop
    split
    · infer_instance
    · rename_i other
      revert isLoop other
      cases inst.kind <;> simp [Kind.sort?, Kind.construct?]
  case h_5 target args => exact @Has.bind _ _ _ _ _ _ (label (has .conditional target rfl).1) inferInstance
  case h_6 target args => exact @Has.bind _ _ _ _ _ _ (label (has .loop target rfl).1.2) inferInstance
  case h_7 target args => exact @Has.bind _ _ _ _ _ _ (label (has .switch target rfl).1) inferInstance
  case h_8 target args => exact @Has.bind _ _ _ _ _ _ (label (has .loop target rfl).1.1) inferInstance
  all_goals infer_instance

/-- The labels that a branch goes to are there, since the branch is inside of the construct that it names. -/
theorem has_of_cover (built : m.WellBuilt) (aimed : m.Aimed) (completed : m.Completed) (cover : scopes.Cover m block)
    (listed : id ∈ m.instsOf block) (held : m.inst id = .ok inst) (sort : ConstructKind) (target : InstId)
    (aims : inst.kind.aims? = some (sort, target)) : scopes.Has sort ∧ m.sortOf? target = some sort := by
  have home : inst.block = block := by
    have same := built.home_of_listed listed
    rw [Module.home?, Module.inst_eq_ok.mp held] at same
    exact Option.some.inj same
  have isSort := aimed id _ (Module.kind?_eq held) _ aims
  obtain ⟨child, owned, under⟩ := completed.inside held (by rw [Kind.target?_eq_aims?, aims]; rfl)
  exact ⟨cover target child sort owned (home ▸ under) isSort, isSort⟩

end

section
variable {id : InstId} {inst : Inst} {options : Options} {body : Scopes → BlockId → Lower Unit}

/-- A selector that is an integer of the module is one of the pool. -/
theorem calm_caseOperands {case : Case} (integers : ∀ constant, .value constant ∈ case.selectors →
      (∃ value, m.constants.get constant = .ok (.scalar (.i32 value))) ∨
        ∃ value, m.constants.get constant = .ok (.scalar (.u32 value))) :
    Calms m (caseOperands id case) := by
  refine .next fun label => ?_
  have each : Calms m (case.selectors.mapM (selectorOperands id label)) := by
    refine .mapM_of fun selector listed => ?_
    cases selector with
    | otherwise => exact Has.pure
    | value constant =>
      refine ⟨?_⟩
      dsimp only [selectorOperands, askPool]
      rw [bind_assoc]
      refine .get_bind fun s within => ?_
      rcases integers constant listed with ⟨value, stored⟩ | ⟨value, stored⟩
      all_goals
        have found := within _ _ stored
        rw [Pool.word?, found]
        exact .pure _
  infer_instance

theorem calm_emitInst (built : m.WellBuilt) (aimed : m.Aimed) (completed : m.Completed) (cover : scopes.Cover m block)
    (listed : id ∈ m.instsOf block)
    (inside : ∀ inner child, inner.Cover m child → Calms m (body inner child)) :
    Calms m (emitInst m options body scopes id) := by
  refine .check_next fun inst held => ?_
  have incoming (block : BlockId) : Calms m (emitIncomingPhis m block) := calm_emitIncomingPhis built completed
  have entering {sort : ConstructKind} (isSort : inst.kind.sort? = some sort) (inner : Scopes) (child : BlockId)
      (adds : scopes.Adds sort inner) (owned : child ∈ inst.kind.children) : Calms m (body inner child) := by
    rw [← Module.blocksOf_eq held] at owned
    refine inside inner child (cover.enter built listed ?_ adds owned)
    rw [Module.sortOf?, Module.kind?_eq held]
    exact isSort
  have phis {found : ConstructKind × List InstId} {implicit : List BlockId}
      (isConstruct : inst.kind.construct? = some found) :
      Calms m (emitExitPhis m id inst found.2 implicit) := calm_emitExitPhis built completed held isConstruct
  have kind : Calms m (emitKind m options body scopes id inst) := by
    unfold emitKind
    split
    case h_17 c isConditional =>
      rw [isConditional] at entering phis
      exact has_emitConditional_of (phis rfl) (entering rfl)
    case h_18 l isLoop =>
      rw [isLoop] at entering phis
      exact has_emitLoop_of (phis rfl) (entering rfl)
    case h_19 s isSwitch =>
      obtain ⟨case, one⟩ := length_eq_one_iff.mp (completed.default held isSwitch)
      have default : Calms m (check (defaultBlock id s)) := by
        rw [defaultBlock, one]
        exact .pure
      have selectors (case : Case) (member : case ∈ s.cases) : Calms m (caseOperands id case) :=
        calm_caseOperands fun _ => completed.selectors held isSwitch member
      rw [isSwitch] at entering phis
      exact has_emitSwitch_of default selectors (phis rfl) (entering rfl)
    case h_20 => exact calm_emitTerminator (has_of_cover built aimed completed cover listed held)
    all_goals infer_instance
  refine .next fun _ => ?_
  split <;> infer_instance

/-- The labels that branches in the block go to are there. By induction on the depth, with `Cover` as the invariant that
each construct passes on to its blocks. -/
theorem calm_emitBodyWithin (built : m.WellBuilt) (aimed : m.Aimed) (completed : m.Completed) {depth : Nat}
    (cover : scopes.Cover m block) : Calms m (emitBodyWithin m options depth scopes block) := by
  induction depth generalizing scopes block with
  | zero => exact cut_calmly.circular
  | succ depth ih =>
    refine .check_next fun b found => ?_
    have each : Calms m (b.insts.forM (emitInst m options (emitBodyWithin m options depth) scopes)) :=
      .forM_of fun id member => calm_emitInst built aimed completed cover (by rwa [Module.instsOf_eq found])
        fun inner child cover => ih cover
    infer_instance

theorem calm_emitFunction (built : m.WellBuilt) (aimed : m.Aimed) (completed : m.Completed) {ref : FuncId} :
    Calms m (emitFunction m options ref) :=
  has_emitFunction fun _ declared => calm_emitBodyWithin built aimed completed
    fun _ _ _ around under => absurd under (Module.not_under_entry built declared around)

end

end Lower

/-- The lowering of a module that was built step by step finds no fault with its control flow, if no branch was refused
and what is left to those who build a module was done. This goes for every function, whatever was lowered before it, and
for the module as a whole. -/
theorem Builder.control_flow_faultless {calls : List Call} {b : Builder}
    (ran : (Builder.start .empty).replay calls = some b) (accepts : (Builder.start .empty).AcceptsBranches calls)
    (completed : b.module.Completed) (options : Options) :
    (∀ ref state failure, b.module.constants.Within state.pool →
      (emitFunction b.module options ref).run state = .error failure → failure.ofControlFlow = false) ∧
    ∀ failure, b.module.generate options = .error failure → failure.ofControlFlow = false := by
  have built := Builder.replay_wellBuilt ran
  have empty : (Builder.start .empty).module.Aimed := fun id kind held => by
    simp [Module.kind?, start, Module.empty] at held
  have aimed := Builder.aimed_of_replay ran accepts empty
  have functions (ref : FuncId) : Calms b.module (emitFunction b.module options ref) :=
    calm_emitFunction built aimed completed
  refine ⟨fun ref state failure within failed => ?_, fun failure failed => ?_⟩
  · exact (functions ref).has.safe within failed
  · exact generate_safe (guarded_emitModule functions) (.refl _) failed

/-- What is left to those who build a module was done, as far as an instruction is concerned. -/
abbrev Module.Checks (m : Module) (inst : Inst) : Prop :=
  (∀ target ∈ inst.kind.target?, ∃ child ∈ m.blocksOf target, ∃ walked ∈ (m.blocksUnder child).toOption,
    inst.block ∈ walked) ∧
  (∀ left ∈ inst.kind.leaves?, ∀ construct ∈ m.insts[left.2.index]?,
    construct.results.length ≤ inst.kind.exitArgs.length) ∧
  (∀ block ∈ m.goesTo? inst.kind, ∀ b ∈ m.blocks[block.index]?, b.params.length ≤ inst.kind.branchArgs.length) ∧
  (match inst.kind with
    | .switch s => (s.cases.filter Case.isDefault).length = 1 && s.cases.all fun case => case.selectors.all fun
      | .value constant => (m.constants.word? constant).toOption.join.isSome
      | .otherwise => true
    | _ => true : Bool)

theorem Pool.integer_of_word? {pool : Pool} {constant : ConstId} {word : UInt32}
    (read : pool.word? constant = .ok (some word)) : (∃ value, pool.get constant = .ok (.scalar (.i32 value))) ∨
      ∃ value, pool.get constant = .ok (.scalar (.u32 value)) := by
  obtain ⟨stored, found, chosen⟩ := bind_eq_ok.mp read
  split at chosen
  · exact .inl ⟨_, found⟩
  · exact .inr ⟨_, found⟩
  · cases chosen

theorem Module.completed_of_checks (each : ∀ inst ∈ m.insts.toList, m.Checks inst) : m.Completed := by
  have checked {id : InstId} {inst : Inst} (held : m.inst id = .ok inst) : m.Checks inst :=
    each inst (Array.mem_toList_iff.mpr (Array.mem_of_getElem? (inst_eq_ok.mp held)))
  constructor
  case inside =>
    intro id inst target held names
    obtain ⟨child, owned, walked, found, listed⟩ := (checked held).1 target names
    exact ⟨child, owned, (Walks.mem_iff (ok_of_mem_toOption found)).mp listed⟩
  case results =>
    intro id inst expected target construct held leaves isConstruct
    exact (checked held).2.1 _ leaves construct (inst_eq_ok.mp isConstruct)
  case params =>
    intro id inst block b held goes found
    exact (checked held).2.2.1 block goes b (block_eq_ok.mp found)
  case default =>
    intro id inst s held isSwitch
    have cases := (checked held).2.2.2
    simp only [isSwitch, Bool.and_eq_true, decide_eq_true_eq] at cases
    exact cases.1
  case selectors =>
    intro id inst s case constant held isSwitch member listed
    have cases := (checked held).2.2.2
    simp only [isSwitch, Bool.and_eq_true, all_eq_true] at cases
    obtain ⟨word, read⟩ := Option.isSome_iff_exists.mp (cases.2 case member (.value constant) listed)
    exact Pool.integer_of_word? (ok_of_mem_toOption (Option.join_eq_some_iff.mp read))

/-- A loop around a conditional around a switch. The switch has a case that leaves the loop, and the conditional goes on
in its continuing block. -/
def Builder.winding : List Call :=
  [.function "main" .void .none, .constant (.scalar (.bool true)), .constant (.scalar (.u32 1)),
    .constant (.scalar (.i32 (-1))), .loop [.u32], .blockParam ⟨2⟩ .u32, .loopInitializer ⟨0⟩,
    .switchToBlock ⟨4⟩, .nextIteration ⟨0⟩ [.constant ⟨1⟩],
    .switchToBlock ⟨2⟩, .conditional (.constant ⟨0⟩) [.u32],
    .switchToBlock ⟨5⟩, .switch (.ssa ⟨1⟩) [], .addCase ⟨3⟩ [.value ⟨1⟩, .value ⟨2⟩], .addCase ⟨3⟩ [.otherwise],
    .switchToBlock ⟨7⟩, .exitSwitch ⟨3⟩ [], .switchToBlock ⟨8⟩, .exitLoop ⟨0⟩ [.ssa ⟨1⟩],
    .switchToBlock ⟨5⟩, .exitIf ⟨2⟩ [.ssa ⟨1⟩], .switchToBlock ⟨6⟩, .continueTo ⟨0⟩ [],
    .switchToBlock ⟨2⟩, .continueTo ⟨0⟩ [], .switchToBlock ⟨3⟩,
    .breakIf ⟨0⟩ (.constant ⟨0⟩) [.ssa ⟨2⟩] [.ssa ⟨2⟩], .switchToBlock ⟨1⟩, .ret none]

theorem Builder.winding_faultless : ∃ b, (Builder.start .empty).replay winding = some b ∧
    (b.module.generate {}).isOk = true ∧ b.module.Completed ∧
    ∀ state failure, b.module.constants.Within state.pool →
      (emitFunction b.module {} ⟨0⟩).run state = .error failure → failure.ofControlFlow = false := by
  have made : ∃ b ∈ (Builder.start .empty).replay winding,
      (∀ inst ∈ b.module.insts.toList, b.module.Checks inst) ∧ (b.module.generate {}).isOk = true := by decide +kernel
  obtain ⟨b, ran, each, lowers⟩ := made
  have completed := Module.completed_of_checks each
  exact ⟨b, ran, lowers, completed, (control_flow_faultless ran (by decide +kernel) completed {}).1 ⟨0⟩⟩

end Shader
