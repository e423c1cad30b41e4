import Shader.Proofs.Builder.WellBuilt
import Shader.Proofs.Lowering.Recursion

/-!
Which modules contain themselves.

The blocks of a construct are made after the block that it is added to, so blocks nest in the order they were made and
none contains itself. There is one way around this. The two blocks of a conditional or a loop are made before it is
known where the construct goes, and any block may be selected, even one that is still to be made: then the construct
is added to one of its own blocks. Nothing that is built later can undo this.
-/
namespace Shader

open Option Lower

variable {id : InstId} {home : BlockId} {blocks : List BlockId}

/-- The blocks that are made along with a construct. -/
def Kind.madeBlocks : Kind → List BlockId
  | .conditional c => [c.whenTrue, c.whenFalse]
  | .loop l => [l.body, l.continuing]
  | _ => []

theorem Kind.madeBlocks_subset (kind : Kind) : kind.madeBlocks ⊆ kind.children := by
  cases kind <;> simp [Kind.madeBlocks, Kind.children]

theorem Kind.madeBlocks_withExit (expected : ConstructKind) (exit : InstId) (kind : Kind) :
    ((Build.withExit expected exit kind).getD kind).madeBlocks = kind.madeBlocks := by
  cases expected <;> cases kind <;> rfl

namespace Module

variable {inward stray : Prop} {m m' : Module}

theorem home?_append (home : BlockId) (kind : Kind) (types : List Ty) (id : InstId) :
    (m.append home kind types).home? id = if id.index = m.insts.size then some home else m.home? id := by
  have exit : ((m.addInst home kind types).addExit ⟨m.insts.size⟩ kind.leaves?).home? id =
      (m.addInst home kind types).home? id := by
    cases kind.leaves? with
    | none => rfl
    | some left => rw [addExit, home?_changeKind]
  rw [append, ← home?_addInst home kind types, ← exit]
  cases m.goesTo? kind <;> rfl

theorem lt_of_home? (held : m.home? id = some home) : id.index < m.insts.size := by
  obtain ⟨inst, found, -⟩ := map_eq_some_iff.mp held
  exact (Array.getElem?_eq_some_iff.mp found).1

theorem ListsInsts.lt_of_home? (lists : m.ListsInsts) (held : m.home? id = some home) : home.index < m.blocks.size := by
  have member := lists.listed.mpr held
  rw [instsOf_eq_getD] at member
  rcases found : m.blocks[home.index]? with _ | b
  · simp [found] at member
  · exact (Array.getElem?_eq_some_iff.mp found).1

theorem ListsInsts.encloses_iff (lists : m.ListsInsts) {outer inner : BlockId} : m.Encloses outer inner ↔
    ∃ id kind, m.home? id = some outer ∧ m.kind? id = some kind ∧ inner ∈ kind.children := by
  refine exists_congr fun id => ⟨fun holds => ?_, fun ⟨kind, home, held, owned⟩ => ?_⟩
  · obtain ⟨member, owned⟩ := holds
    obtain ⟨inst, held, owned⟩ := exists_of_mem_blocksOf owned
    exact ⟨inst.kind, lists.listed.mp member, kind?_eq held, owned⟩
  · obtain ⟨inst, found, rfl⟩ := map_eq_some_iff.mp held
    exact ⟨lists.listed.mpr home, by rwa [blocksOf_eq (inst_eq_ok.mpr found)]⟩

/-- What blocks list and constructs own is in the tables of a module that was built. -/
theorem Shaped.closed (shaped : m.Shaped) : m.Closed where
  insts {block id} member := by
    obtain ⟨inst, found, -⟩ := map_eq_some_iff.mp (shaped.lists.listed.mp member)
    exact ⟨inst, inst_eq_ok.mpr found⟩
  blocks {id inst} held block owned := by
    obtain ⟨b, found, -⟩ := map_eq_some_iff.mp (shaped.owns.children (kind?_eq held) block owned)
    exact ⟨b, block_eq_ok.mpr found⟩

/-- Constructs are in blocks that were made before their own. -/
structure Ascends (m : Module) : Prop where
  lt : ∀ {id kind home}, m.kind? id = some kind → m.home? id = some home → ∀ block ∈ kind.children,
    home.index < block.index

namespace Ascends

theorem congr (ascends : m.Ascends) (children : ∀ id, (m'.kind? id).map Kind.children = (m.kind? id).map Kind.children)
    (homes : ∀ id, m'.home? id = m.home? id) : m'.Ascends := by
  refine ⟨fun {id kind home} held found block owned => ?_⟩
  have same := children id
  rw [held] at same
  obtain ⟨old, before, eq⟩ := map_eq_some_iff.mp same.symm
  exact ascends.lt before (homes id ▸ found) block (eq ▸ owned)

theorem addBlock (ascends : m.Ascends) (parent : Option InstId) : (m.addBlock parent).Ascends :=
  ascends.congr (fun _ => rfl) fun _ => rfl

theorem addInst (ascends : m.Ascends) {kind : Kind} (types : List Ty)
    (above : ∀ block ∈ kind.children, home.index < block.index) : (m.addInst home kind types).Ascends := by
  refine ⟨fun {id found place} held isHome block owned => ?_⟩
  rw [kind?_addInst] at held
  rw [home?_addInst] at isHome
  split at held
  · rename_i new
    rw [if_pos new] at isHome
    cases held
    cases isHome
    exact above block owned
  · rename_i old
    rw [if_neg old] at isHome
    exact ascends.lt held isHome block owned

/-- An instruction without blocks is added. -/
theorem append (ascends : m.Ascends) (home : BlockId) {kind : Kind} (types : List Ty) (childless : kind.children = []) :
    (m.append home kind types).Ascends := by
  have added : (m.addInst home kind types).Ascends := ascends.addInst types (by simp [childless])
  refine added.congr (fun id => ?_) fun id => ?_
  · rw [kind?_append, ← kind?_addInst home kind types, map_map]
    congr 1
    exact funext fun old => registered_eq _ _ _ _ fun _ => children_withExit ..
  · rw [home?_append, home?_addInst]

/-- A construct gets one more block, in the place of none or of another one. -/
theorem child (ascends : m.Ascends) (lists : m.ListsInsts) {target : InstId} {old new : Kind}
    (held : m.kind? target = some old)
    (children : ∀ block ∈ new.children, block = ⟨m.blocks.size⟩ ∨ block ∈ old.children) :
    ((m.addBlock (some target)).changeKind target fun _ => new).Ascends := by
  refine ⟨fun {id kind home} found isHome block owned => ?_⟩
  rw [kind?_changeKind] at found
  rw [home?_changeKind] at isHome
  split at found
  · rename_i same
    obtain ⟨-, -, rfl⟩ := map_eq_some_iff.mp found
    rcases children block owned with rfl | before
    · exact lists.lt_of_home? isHome
    · exact ascends.lt held (same ▸ isHome) block before
  · exact ascends.lt found isHome block owned

end Ascends

/-- Every edit keeps the order, if constructs are not added to blocks that are made for them. -/
theorem Edit.ascends (edit : Edit False stray m m') (lists : m.ListsInsts) (ascends : m.Ascends) : m'.Ascends := by
  have blocks : m.addBlocks.Ascends := (ascends.addBlock _).addBlock _
  have construct {kind : Kind} {block : BlockId} (types : List Ty) (placed : False ∨ block.index < m.blocks.size)
      (children : kind.children = [⟨m.blocks.size⟩, ⟨m.blocks.size + 1⟩]) :
      (m.addBlocks.addInst block kind types).Ascends := by
    have before := placed.resolve_left id
    refine blocks.addInst types fun child owned => ?_
    rw [children] at owned
    rcases List.mem_pair.mp owned with rfl | rfl
    · exact before
    · exact Nat.lt_succ_of_lt before
  cases edit with
  | relabel | block | function | param | blockParam => exact ascends.congr (fun _ => rfl) fun _ => rfl
  | inst opened childless => exact ascends.append _ _ childless
  | conditional opened placed => exact construct _ placed rfl
  | loop opened placed => exact construct _ placed rfl
  | initializer held =>
    refine ascends.child lists (loop?_eq_some.mp held) fun block owned => ?_
    rcases List.mem_cons.mp owned with rfl | old
    · exact .inl rfl
    · exact .inr (List.mem_append_right _ old)
  | case held =>
    refine ascends.child lists held fun block owned => ?_
    simp only [Kind.children, List.map_append, List.map_singleton, List.mem_append, List.mem_singleton] at owned
    exact owned.symm

theorem EditsTo.ascends (edits : m.EditsTo False stray m') (shaped : m.Shaped) (ascends : m.Ascends) : m'.Ascends := by
  induction edits with
  | refl => exact ascends
  | tail before edit ih => exact edit.ascends (EditsTo.shaped before shaped).lists ih

/-- On the way down the blocks get newer and newer. -/
theorem Ascends.acyclic (ascends : m.Ascends) (lists : m.ListsInsts) : m.Acyclic := by
  refine Shader.acyclic_of_lt fun (outer inner : BlockId) encloses => (?_ : outer.index < inner.index)
  obtain ⟨id, kind, home, held, owned⟩ := lists.encloses_iff.mp encloses
  exact ascends.lt held home inner owned

/-- A construct is in one of the blocks that were made along with it. -/
structure Engulfed (m : Module) (id : InstId) (home : BlockId) (blocks : List BlockId) : Prop where
  isHome : m.home? id = some home
  made : (m.kind? id).map Kind.madeBlocks = some blocks
  inside : home ∈ blocks

theorem Engulfed.not_acyclic (engulfed : m.Engulfed id home blocks) (lists : m.ListsInsts) : ¬ m.Acyclic := by
  intro acyclic
  obtain ⟨kind, held, rfl⟩ := map_eq_some_iff.mp engulfed.made
  exact acyclic home (.single (lists.encloses_iff.mpr
    ⟨id, kind, engulfed.isHome, held, kind.madeBlocks_subset engulfed.inside⟩))

/-- No edit moves an instruction. -/
theorem Edit.home?_eq (edit : Edit inward stray m m') (held : m.home? id = some home) : m'.home? id = some home := by
  have old := (Module.lt_of_home? held).ne
  cases edit with
  | relabel | block | function | param | blockParam => exact held
  | inst => rw [home?_append, if_neg old, held]
  | conditional | loop => exact (home?_addInst ..).trans ((if_neg old).trans held)
  | initializer | case => rw [home?_changeKind]; exact held

/-- A construct that is in its own block stays there. -/
theorem EditsTo.engulfed (edits : m.EditsTo inward stray m') (engulfed : m.Engulfed id home blocks) :
    m'.Engulfed id home blocks := by
  induction edits with
  | refl => exact engulfed
  | tail _ edit ih =>
    obtain ⟨kind, held, rfl⟩ := map_eq_some_iff.mp ih.made
    have made := edit.view_eq Kind.madeBlocks_withExit (fun _ _ => rfl) (fun _ _ => rfl) held
    exact ⟨edit.home?_eq ih.isHome, made, ih.inside⟩

end Module

namespace Build

open Shader.Module

variable {b : Builder}

theorem size_addBlocks {m : Module} : m.addBlocks.blocks.size = m.blocks.size + 2 := by
  simp [addBlocks, addBlock]

/-- The blocks that are made along with a construct can be added to. -/
theorem terminator?_addBlocks {m : Module} {block : BlockId} (beyond : m.blocks.size ≤ block.index)
    (known : block.index < m.addBlocks.blocks.size) : m.addBlocks.terminator? block = .ok none := by
  have empty : m.addBlocks.instsOf block = [] := by
    rw [addBlocks, instsOf_addBlock, instsOf_addBlock, instsOf_eq_getD, Array.getElem?_eq_none beyond]
    rfl
  have found : m.addBlocks.block block = .ok m.addBlocks.blocks[block.index] :=
    block_eq_ok.mpr (Array.getElem?_eq_getElem known)
  rw [instsOf_eq found] at empty
  exact terminator?_eq_none.mpr ⟨_, found, by simp [empty]⟩

/-- A construct that is begun where no block is yet ends up in a block of its own, or ends the building. -/
theorem engulfed_begin {α : Type} {construct : BlockId → BlockId → Kind} {types : List Ty}
    {handle : BlockId → BlockId → InstId × List Value → α}
    (made : ∀ first second, (construct first second).madeBlocks = [first, second])
    (beyond : b.module.blocks.size ≤ b.current.index) (goes : Goes (exec (begin construct types handle) b).1) :
    ∃ id home blocks, (exec (begin construct types handle) b).2.module.Engulfed id home blocks := by
  rw [exec_begin] at goes ⊢
  have ran := exec_push (b := ⟨b.module.addBlocks, b.current⟩)
    (construct ⟨b.module.blocks.size⟩ ⟨b.module.blocks.size + 1⟩) types
  by_cases known : b.current.index < b.module.addBlocks.blocks.size
  · have opened := terminator?_addBlocks beyond known
    simp only [opened] at ran
    rw [exec_bind_ok ran, exec_pure]
    refine ⟨⟨b.module.insts.size⟩, b.current, [⟨b.module.blocks.size⟩, ⟨b.module.blocks.size + 1⟩], ?_, ?_, ?_⟩
    · exact (home?_addInst ..).trans (if_pos rfl)
    · rw [kind?_addInst, if_pos (by rfl)]
      exact congrArg some (made _ _)
    · rw [size_addBlocks] at known
      have index : b.current.index = b.module.blocks.size ∨ b.current.index = b.module.blocks.size + 1 := by omega
      exact List.mem_pair.mpr (index.imp (congrArg BlockId.mk) (congrArg BlockId.mk))
  · have unknown : b.module.addBlocks.terminator? b.current = .error (.unknownBlock b.current) := by
      rw [terminator?, Module.block, Array.getElem?_eq_none (Nat.not_lt.mp known)]
      rfl
    simp only [unknown] at ran
    exact absurd (goes_of_exec (exec_bind_error ran) goes _ rfl) (by simp [BuildFailure.isRefusal])

end Build

namespace Builder

open Build Shader.Module

variable {b c : Builder} {calls : List Call}

instance decidableOutward : (builder : Builder) → (calls : List Call) → Decidable (builder.Outward calls)
  | _, [] => .isTrue trivial
  | builder, call :: calls =>
    have := decidableOutward (builder.apply call).2 calls
    inferInstanceAs (Decidable (_ ∧ _))

theorem engulfed_run {call : Call} (begins : call.beginsConstruct = true)
    (beyond : b.module.blocks.size ≤ b.current.index) (goes : Goes (exec call.run b).1) :
    ∃ id home blocks, (exec call.run b).2.module.Engulfed id home blocks := by
  cases call with
  | conditional condition types =>
    rw [Call.run, exec_answer] at goes ⊢
    rw [conditional_eq] at goes ⊢
    exact engulfed_begin (fun _ _ => rfl) beyond (goes_of_map goes)
  | loop types =>
    rw [Call.run, exec_answer] at goes ⊢
    rw [loop_eq] at goes ⊢
    exact engulfed_begin (fun _ _ => rfl) beyond (goes_of_map goes)
  | _ => cases begins

/-- Steps that begin a construct where no block is yet leave it in a block of its own. -/
theorem engulfed_of_replay (ran : b.replay calls = some c) (inward : ¬ b.Outward calls) :
    ∃ id home blocks, c.module.Engulfed id home blocks := by
  induction calls generalizing b with
  | nil => exact absurd trivial inward
  | cons call rest ih =>
    obtain ⟨goes, later⟩ := goes_of_replay ran
    by_cases here : call.beginsConstruct = true ∧ b.module.blocks.size ≤ b.current.index
    · obtain ⟨id, home, blocks, engulfed⟩ := engulfed_run here.1 here.2 goes
      exact ⟨id, home, blocks, (edits_of_replay later).engulfed engulfed⟩
    · refine ih later fun outward => inward ⟨fun begins => ?_, outward⟩
      exact Nat.not_le.mp fun beyond => here ⟨begins, beyond⟩

/-- Exactly the steps that begin constructs in blocks that are there leave a module in which no block contains itself.
Such a module can be walked from every block, and its lowering is a recursion that comes to an end. -/
theorem replay_acyclic_iff (ran : (Builder.start .empty).replay calls = some b) :
    (b.module.Acyclic ↔ (Builder.start .empty).Outward calls) ∧
      (b.module.Acyclic ↔ ∀ block : BlockId, block.index < b.module.blocks.size →
        ∃ walked, b.module.blocksUnder block = .ok walked) ∧
      (b.module.Acyclic → ∀ (options : Options) (body : Scopes → BlockId → Lower Unit),
        LowersBlocks b.module options body ↔
          body = emitBodyWithin b.module options (b.module.blocks.size + 1)) := by
  have shaped := (edits_of_replay ran).shaped shaped_empty
  refine ⟨⟨fun acyclic => ?_, fun outward => ?_⟩, acyclic_iff_walks shaped.closed,
    fun acyclic options body => lowersBlocks_iff acyclic⟩
  · by_contra inward
    obtain ⟨id, home, blocks, engulfed⟩ := engulfed_of_replay ran inward
    exact engulfed.not_acyclic shaped.lists acyclic
  · have ascends : Module.empty.Ascends := ⟨fun held => by simp [kind?, empty] at held⟩
    exact ((edits_of_replay_placed ran (.inr outward) (.inl trivial)).ascends shaped_empty ascends).acyclic shaped.lists

theorem tangled_acyclic : ∃ b, (Builder.start .empty).replay tangled = some b ∧ b.module.Acyclic ∧
    (∃ walked, b.module.blocksUnder ⟨1⟩ = .ok walked) ∧
    LowersBlocks b.module {} (emitBodyWithin b.module {} (b.module.blocks.size + 1)) := by
  have made : ((Builder.start .empty).replay tangled).map (·.module.blocks.size) = some 7 := by decide +kernel
  obtain ⟨b, ran, size⟩ := map_eq_some_iff.mp made
  obtain ⟨outward, walks, lowers⟩ := replay_acyclic_iff ran
  have acyclic := outward.mpr (by decide +kernel)
  exact ⟨b, ran, acyclic, walks.mp acyclic ⟨1⟩ (by simp [size]), (lowers acyclic {} _).mpr rfl⟩

/-- Selecting the next block and adding a conditional to it makes the block contain itself. A switch, which has no
blocks at first, ends the building there. -/
theorem conditional_inside_itself : ∃ b,
    (Builder.start .empty).replay [.switchToBlock ⟨1⟩, .conditional (.literal 0) []] = some b ∧
      ¬ b.module.Acyclic ∧ b.module.blocksUnder ⟨1⟩ = .error .circular ∧
      (Builder.start .empty).replay [.switchToBlock ⟨1⟩, .switch (.literal 0) []] = none := by
  have made : ((Builder.start .empty).replay [.switchToBlock ⟨1⟩, .conditional (.literal 0) []]).map (fun b =>
      (b.module.instsOf ⟨1⟩, b.module.blocksOf ⟨0⟩, b.module.blocksUnder ⟨1⟩)) =
        some ([⟨0⟩], [⟨1⟩, ⟨2⟩], .error .circular) := by decide +kernel
  obtain ⟨b, ran, read⟩ := map_eq_some_iff.mp made
  obtain ⟨insts, blocks, walk⟩ : b.module.instsOf ⟨1⟩ = [⟨0⟩] ∧ b.module.blocksOf ⟨0⟩ = [⟨1⟩, ⟨2⟩] ∧
      b.module.blocksUnder ⟨1⟩ = .error .circular := by simpa using read
  refine ⟨b, ran, fun acyclic => ?_, walk, by decide +kernel⟩
  exact acyclic ⟨1⟩ (.single ⟨⟨0⟩, by simp [insts], by simp [blocks]⟩)

end Builder
end Shader
