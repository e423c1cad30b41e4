import Mathlib.Data.List.Forall2
import Mathlib.Data.Multiset.Basic
import Shader.Module

/-!
How the blocks and instructions of a module nest.

The functions of a module and its root hold blocks, blocks hold instructions, and constructs hold blocks
again. A block is live if it is met on the way down from a function or is the root. `Module.held` lists
everything that is met on that way, once for each time it is met, so nothing belongs to two places exactly
if no member of the list is repeated.
-/
namespace Shader

open List

variable {α β : Type} {as : List α} {bs : List β} {id : InstId} {inst : Inst} {block : BlockId}
variable {ε : Type} {outcome : Except ε α}

-- Not by `rfl`, so that `simp` rewrites with these one step at a time.
@[simp] theorem ok_bind (a : α) (next : α → Except ε β) : Except.ok a >>= next = next a := by
  simp only [bind, Except.bind]

@[simp] theorem error_bind (error : ε) (next : α → Except ε β) : Except.error error >>= next = .error error := by
  simp only [bind, Except.bind]

@[simp] theorem pure_ok (a : α) : (pure a : Except ε α) = .ok a := by
  simp only [pure, Except.pure]

theorem bind_eq_ok {next : α → Except ε β} {b : β} :
    outcome >>= next = .ok b ↔ ∃ a, outcome = .ok a ∧ next a = .ok b := by
  cases outcome with
  | error fault => simp
  | ok a => simp

theorem mapM_eq_ok {f : α → Except ε β} : as.mapM f = .ok bs ↔ Forall₂ (fun a b => f a = .ok b) as bs := by
  induction as generalizing bs with
  | nil =>
    rw [mapM_nil, forall₂_nil_left_iff]
    exact ⟨fun same => by cases same; rfl, fun same => same ▸ rfl⟩
  | cons a as ih =>
    simp only [mapM_cons, bind_eq_ok, forall₂_cons_left_iff, ih]
    constructor
    · rintro ⟨b, head, rest, tail, same⟩
      cases same
      exact ⟨b, rest, head, tail, rfl⟩
    · rintro ⟨b, rest, head, tail, rfl⟩
      exact ⟨b, head, rest, tail, rfl⟩

theorem forall₂_comp {γ : Type} {first : α → β → Prop} {second : β → γ → Prop} {cs : List γ}
    (one : Forall₂ first as bs) (two : Forall₂ second bs cs) :
    Forall₂ (fun a c => ∃ b, first a b ∧ second b c) as cs := by
  induction one generalizing cs with
  | nil =>
    cases two
    exact .nil
  | cons head _ ih =>
    cases two with
    | cons head' tail' => exact .cons ⟨_, head, head'⟩ (ih tail')

theorem forall₂_mem_right {related : α → β → Prop} {b : β} (each : Forall₂ related as bs) (member : b ∈ bs) :
    ∃ a ∈ as, related a b := by
  induction each with
  | nil => cases member
  | cons head _ ih =>
    rcases mem_cons.mp member with rfl | later
    · exact ⟨_, mem_cons_self, head⟩
    · obtain ⟨a, held, relates⟩ := ih later
      exact ⟨a, mem_cons_of_mem _ held, relates⟩

/-- The construct that a branch names. -/
def Kind.target? : Kind → Option InstId
  | .exitIf target _ | .exitLoop target _ | .exitSwitch target _ | .breakIf _ target _ _
  | .nextIteration target _ | .continueTo target _ => some target
  | _ => none

namespace Module

variable {m : Module}

theorem structDef_eq_ok {id : StructId} {definition : StructDef} :
    m.structDef id = .ok definition ↔ definition ∈ m.structs[id.index]? := by
  rw [structDef]
  split <;> simp [*, eq_comm]

theorem value_eq_ok {id : ValueId} {definition : ValueDef} :
    m.value id = .ok definition ↔ definition ∈ m.values[id.index]? := by
  rw [value]
  split <;> simp [*, eq_comm]

theorem function_eq_ok {id : FuncId} {definition : Function} :
    m.function id = .ok definition ↔ definition ∈ m.functions[id.index]? := by
  rw [function]
  split <;> simp [*, eq_comm]

theorem block_eq_ok {id : BlockId} {b : Block} : m.block id = .ok b ↔ b ∈ m.blocks[id.index]? := by
  unfold block
  split <;> simp_all

theorem inst_eq_ok : m.inst id = .ok inst ↔ inst ∈ m.insts[id.index]? := by
  unfold Module.inst
  split <;> simp_all

/-- What holds of each entry of the table of blocks holds of each block. -/
theorem forall_block {P : BlockId → Block → Prop}
    (each : ∀ index < m.blocks.size, ∀ b ∈ m.blocks[index]?, P ⟨index⟩ b) {id : BlockId} {b : Block}
    (found : m.block id = .ok b) : P id b := by
  have entry := block_eq_ok.mp found
  exact each id.index (Array.getElem?_eq_some_iff.mp entry).1 b entry

/-- What holds of each entry of the table of instructions holds of each instruction. -/
theorem forall_inst {P : InstId → Inst → Prop}
    (each : ∀ index < m.insts.size, ∀ inst ∈ m.insts[index]?, P ⟨index⟩ inst) (held : m.inst id = .ok inst) :
    P id inst := by
  have entry := inst_eq_ok.mp held
  exact each id.index (Array.getElem?_eq_some_iff.mp entry).1 inst entry

/-- What holds of each entry of the table of functions holds of each function. -/
theorem forall_function {P : FuncId → Function → Prop}
    (each : ∀ index < m.functions.size, ∀ function ∈ m.functions[index]?, P ⟨index⟩ function) {ref : FuncId}
    {function : Function} (declared : m.function ref = .ok function) : P ref function := by
  have entry := function_eq_ok.mp declared
  exact each ref.index (Array.getElem?_eq_some_iff.mp entry).1 function entry

/-- A block that a function or the root leads to. -/
inductive Live (m : Module) : BlockId → Prop where
  | root : Live m .root
  | entry {ref : FuncId} {function : Function} (declared : m.function ref = .ok function) : Live m function.entry
  | child {outer block : BlockId} {b : Block} {id : InstId} {inst : Inst} (live : Live m outer)
      (found : m.block outer = .ok b) (member : id ∈ b.insts) (held : m.inst id = .ok inst)
      (owned : block ∈ inst.kind.children) : Live m block

/-- An instruction of a live block. -/
def Reached (m : Module) (id : InstId) : Prop :=
  ∃ block b, m.Live block ∧ m.block block = .ok b ∧ id ∈ b.insts

theorem Reached.live (reached : m.Reached id) (held : m.inst id = .ok inst) (owned : block ∈ inst.kind.children) :
    m.Live block := by
  obtain ⟨outer, b, live, found, member⟩ := reached
  exact .child live found member held owned

/-- What belongs to one place of a module. -/
inductive Part where
  | block (id : BlockId)
  | inst (id : InstId)
  | value (id : ValueId)
  deriving DecidableEq

variable {parts : List Part}

/-- An instruction and its results. -/
def instParts (id : InstId) (inst : Inst) : List Part := .inst id :: inst.results.map .value

/-- A block with its parameters, its instructions and their results. -/
def heldIn (m : Module) (id : BlockId) : Except Fault (List Part) := do
  let b ← m.block id
  let insts ← b.insts.mapM fun id => do return instParts id (← m.inst id)
  return .block id :: (b.params.map .value ++ insts.flatten)

/-- Everything that the root and the functions of a module hold. -/
def held (m : Module) : Except Fault (List Part) := do
  let root ← m.heldIn .root
  let functions ← m.functions.toList.mapM fun function => do
    return function.params.map .value ++ (← m.collect m.heldIn function.entry)
  return root ++ functions.flatten

theorem parts_of_heldIn (visited : m.heldIn block = .ok parts) : ∃ b lists, m.block block = .ok b ∧
    Forall₂ (fun id list => ∃ inst, m.inst id = .ok inst ∧ list = instParts id inst) b.insts lists ∧
    parts = .block block :: (b.params.map .value ++ lists.flatten) := by
  obtain ⟨b, found, rest⟩ := bind_eq_ok.mp visited
  obtain ⟨lists, listed, same⟩ := bind_eq_ok.mp rest
  cases same
  refine ⟨b, lists, found, (mapM_eq_ok.mp listed).imp fun id list each => ?_, rfl⟩
  obtain ⟨inst, held, same⟩ := bind_eq_ok.mp each
  cases same
  exact ⟨inst, held, rfl⟩

/-- What is collected from the blocks that an instruction owns. -/
def CollectedUnder {α : Type} (m : Module) (visit : BlockId → Except Fault (List α)) (depth : Nat)
    (id : InstId) (list : List α) : Prop :=
  ∃ inst lists, m.inst id = .ok inst ∧ Forall₂ (fun child list =>
    m.collectWithin visit depth child = .ok list) inst.kind.children lists ∧ list = lists.flatten

variable {α : Type} {visit : BlockId → Except Fault (List α)} {depth : Nat} {block : BlockId}
  {id : InstId} {list : List α}

theorem collectedUnder_iff : CollectedUnder m visit depth id list ↔ (do
    return (← (← m.childrenOf id).mapM (m.collectWithin visit depth)).flatten) = Except.ok list := by
  simp only [bind_eq_ok, childrenOf, mapM_eq_ok]
  constructor
  · rintro ⟨inst, lists, held, listed, rfl⟩
    exact ⟨_, ⟨inst, held, rfl⟩, lists, listed, rfl⟩
  · rintro ⟨_, ⟨inst, held, same⟩, lists, listed, flat⟩
    cases same
    cases flat
    exact ⟨inst, lists, held, listed, rfl⟩

/-- What is collected from a block is what is found in it and then what is collected from the blocks
under it. -/
theorem collectWithin_succ : m.collectWithin visit (depth + 1) block = .ok list ↔
    ∃ b found nested, m.block block = .ok b ∧ visit block = .ok found ∧
      Forall₂ (CollectedUnder m visit depth) b.insts nested ∧ list = found ++ nested.flatten := by
  simp only [collectWithin, bind_eq_ok, mapM_eq_ok]
  constructor
  · rintro ⟨found, visited, b, held, nested, listed, same⟩
    cases same
    exact ⟨b, found, nested, held, visited, listed.imp fun _ _ each => collectedUnder_iff.mpr
      (by simpa only [bind_eq_ok, mapM_eq_ok] using each), rfl⟩
  · rintro ⟨b, found, nested, held, visited, listed, rfl⟩
    exact ⟨found, visited, b, held, nested, listed.imp fun _ _ each => by
      simpa only [bind_eq_ok, mapM_eq_ok] using collectedUnder_iff.mp each, rfl⟩

/-- Everything belongs to one place of the module and says so, and the root only declares variables. -/
structure Owned (m : Module) : Prop where
  once : ∃ parts, m.held = .ok parts ∧ parts.Nodup
  placed : ∀ block b id inst, m.Live block → m.block block = .ok b → id ∈ b.insts → m.inst id = .ok inst →
    inst.block = block
  parented : ∀ id inst block b, m.Reached id → m.inst id = .ok inst → block ∈ inst.kind.children →
    m.block block = .ok b → b.parent = some id
  declarations : ∀ b id inst, m.rootBlock = .ok b → id ∈ b.insts → m.inst id = .ok inst →
    ∃ declaration, inst.kind = .var declaration

/-- A function with all that it holds. -/
def FunctionHeld (m : Module) (function : Function) (list : List Part) : Prop :=
  ∃ below, m.collect m.heldIn function.entry = .ok below ∧ list = function.params.map .value ++ below

theorem parts_of_held (found : m.held = .ok parts) : ∃ root lists, m.heldIn .root = .ok root ∧
    Forall₂ (FunctionHeld m) m.functions.toList lists ∧ parts = root ++ lists.flatten := by
  obtain ⟨root, rootHeld, rest⟩ := bind_eq_ok.mp found
  obtain ⟨lists, listed, same⟩ := bind_eq_ok.mp rest
  cases same
  refine ⟨root, lists, rootHeld, (mapM_eq_ok.mp listed).imp fun function list each => ?_, rfl⟩
  obtain ⟨below, collected, same⟩ := bind_eq_ok.mp each
  cases same
  exact ⟨below, collected, rfl⟩

theorem forall₂_function (m : Module) :
    Forall₂ (fun index function => m.function ⟨index⟩ = .ok function) (range m.functions.size)
      m.functions.toList := by
  rw [forall₂_iff_get]
  refine ⟨by simp, fun index inRange inList => ?_⟩
  have bound : index < m.functions.size := by simpa using inRange
  simp [function, bound]

theorem ok_of_mem_toOption {ε : Type} {outcome : Except ε α} {a : α} (member : a ∈ outcome.toOption) :
    outcome = .ok a := by
  cases outcome with
  | error fault => cases member
  | ok found =>
    cases member
    rfl

instance {ε : Type} (outcome : Except ε α) : Decidable (∃ a, outcome = .ok a) :=
  match outcome with
  | .ok a => isTrue ⟨a, rfl⟩
  | .error _ => isFalse nofun

/-- Whether something succeeds and comes to a result of some kind can be found out by doing it. -/
instance {ε : Type} (outcome : Except ε α) (P : α → Prop) [DecidablePred P] :
    Decidable (∃ a, outcome = .ok a ∧ P a) :=
  match outcome with
  | .ok a => decidable_of_iff (P a) ⟨fun holds => ⟨a, rfl, holds⟩, fun ⟨_, same, holds⟩ => Except.ok.inj same ▸ holds⟩
  | .error _ => isFalse nofun

/-- That a module owns everything once can be seen from its tables. -/
theorem owned_of_tables (once : ∃ parts ∈ m.held.toOption, parts.Nodup)
    (placed : ∀ index < m.blocks.size, ∀ b ∈ m.blocks[index]?, ∀ id ∈ b.insts,
      ∀ inst ∈ m.insts[id.index]?, inst.block = ⟨index⟩)
    (parented : ∀ index < m.insts.size, ∀ inst ∈ m.insts[index]?, ∀ block ∈ inst.kind.children,
      ∀ b ∈ m.blocks[block.index]?, b.parent = some ⟨index⟩)
    (bare : ∀ b ∈ m.blocks[0]?, b.insts = []) : m.Owned where
  once := by
    obtain ⟨parts, found, once⟩ := once
    exact ⟨parts, ok_of_mem_toOption found, once⟩
  placed block b id inst _ found member held :=
    forall_block (P := fun block b => ∀ id ∈ b.insts, ∀ inst ∈ m.insts[id.index]?, inst.block = block) placed
      found id member inst (inst_eq_ok.mp held)
  parented id inst block b _ held owned found :=
    forall_inst (P := fun id inst => ∀ block ∈ inst.kind.children, ∀ b ∈ m.blocks[block.index]?,
      b.parent = some id) parented held block owned b (block_eq_ok.mp found)
  declarations b id inst found member _ := by
    rw [bare b (block_eq_ok.mp found)] at member
    cases member

/-- Every instruction is reached if the block that it stands in is that of a function or belongs to an instruction
before it. -/
theorem reached_of_tables (each : ∀ index < m.insts.size, ∃ inst ∈ m.insts[index]?,
      (∃ b ∈ m.blocks[inst.block.index]?, ⟨index⟩ ∈ b.insts) ∧
        ((∃ ref ∈ range m.functions.size, ∃ function ∈ m.functions[ref]?, function.entry = inst.block) ∨
        ∃ owner ∈ range index, ∃ outer ∈ m.insts[owner]?, inst.block ∈ outer.kind.children))
    {id : InstId} (bound : id.index < m.insts.size) : m.Reached id := by
  obtain ⟨index⟩ := id
  induction index using Nat.strong_induction_on with
  | _ index ih =>
    obtain ⟨inst, -, ⟨b, found, member⟩,
      ⟨ref, -, function, declared, isEntry⟩ | ⟨owner, earlier, outer, held, owned⟩⟩ :=
      each index bound
    · exact ⟨_, b, isEntry ▸ .entry (function_eq_ok.mpr declared), block_eq_ok.mpr found, member⟩
    · have before := ih owner (mem_range.mp earlier) ((mem_range.mp earlier).trans bound)
      exact ⟨_, b, before.live (inst_eq_ok.mpr held) owned, block_eq_ok.mpr found, member⟩

end Module
end Shader
