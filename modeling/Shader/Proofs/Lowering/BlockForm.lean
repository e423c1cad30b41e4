import Shader.Proofs.Lowering.Blocks

/-!
The form of a basic block.

After its label a block has phis, or the variables of the function if it is the first one. Then come
ordinary instructions and one branch, which may declare where it merges. This holds however the constructs
of a function nest, whichever branches of conditionals are left out and whichever blocks are empty.
-/
namespace Shader.Binary

/-- The block has its label, then the leading instructions, then ordinary ones, and then its one branch,
with a merge declared right before it if at all. -/
def BasicBlock.Arranged (leading : List Instruction) (block : BasicBlock) : Prop :=
  block.label.op = .label ∧ ∃ (ordinary : List Instruction) (merge : Option Instruction) (last : Instruction),
    block.body.toList = leading ++ (ordinary ++ (merge.toList ++ [last])) ∧
    (∀ inst ∈ ordinary, inst.op.isOrdinary = true) ∧ (∀ inst ∈ merge, inst.op.isMerge = true) ∧
    last.op.isTerminator = true

/-- The variables of the function lead its first block, and phis may lead each other block. -/
def FunctionCode.Arranged (code : FunctionCode) : Prop :=
  ∃ entry rest, withLocals code.locals code.blocks = entry :: rest ∧
    entry.Arranged code.locals.toList ∧ (∀ inst ∈ code.locals.toList, inst.op = .variableDecl) ∧
    ∀ block ∈ rest, ∃ phis, block.Arranged phis ∧ ∀ inst ∈ phis, inst.op = .phi

end Shader.Binary

namespace Shader.Lower

open Binary Instruction

variable {m : Module} {L : Ledger} {names : Place → Word → Prop}

theorem SegmentCode.arranged {segment : Segment} {block : BasicBlock} (laid : SegmentCode m L names segment block) :
    ∃ phis, block.Arranged phis ∧ JoinCode m L segment.joins phis := by
  obtain ⟨label, phis, codes, last, -, opens, joins, plain, jumps, body⟩ := laid
  obtain ⟨merge, final, rfl, merges, ends⟩ := jumps.ends
  have labelled : block.label.op = .label := by rw [opens]; rfl
  exact ⟨phis, ⟨labelled, codes.flatten, merge, final, body, PlainCode.ordinary plain, merges, ends⟩, joins⟩

theorem Planned.arranged {function : Function} {heads : List (InstId × Word)} {code : FunctionCode}
    (planned : Planned m L function heads code) : code.Arranged := by
  obtain ⟨-, blocks, locals⟩ := planned
  unfold FunctionCode.Arranged
  generalize code.blocks = found at blocks
  cases blocks with
  | @cons _ first _ rest here later =>
    refine ⟨_, rest, rfl, ?_, locals, ?_⟩
    · -- No values meet at the start of a function.
      obtain ⟨phis, ⟨labelled, ordinary, merge, last, body, shape⟩, joins⟩ := here.arranged
      cases joins
      exact ⟨labelled, ordinary, merge, last, by simp [body], shape⟩
    · intro block member
      obtain ⟨segment, -, laid⟩ := forall₂_mem_right later member
      obtain ⟨phis, arranged, joins⟩ := laid.arranged
      exact ⟨phis, arranged, joins.phis⟩

/-- Blocks that are ended only where they stop are lowered to blocks of the proper form. -/
theorem functions_arranged {options : Options} {assembly : Assembly} (lowers : m.lower options = .ok assembly)
    (ended : ∀ ref function, m.function ref = .ok function → ∀ inner b, m.Under function.entry inner →
      m.block inner = .ok b → m.Ended b.insts) : ∀ code ∈ assembly.functions.toList, code.Arranged := by
  obtain ⟨state, e, -, -, -, planned⟩ := planned_of_lower lowers ended
  intro code member
  obtain ⟨index, -, function, heads, -, -, planned⟩ := forall₂_mem_right planned member
  exact planned.arranged

/-- A loop that is left from a conditional in its body and from its continuing block. One branch of the
conditional holds nothing but its exit, and a switch gives a value to the continuing block. -/
def searching : Module where
  constants := ⟨#[.scalar (.u32 0), .scalar (.u32 1)]⟩
  values := #[⟨.u32, none, .functionParam ⟨0⟩⟩, ⟨.u32, none, .blockParam ⟨3⟩⟩,
    ⟨.pointer .functionLocal .u32 .readWrite, none, .result ⟨0⟩⟩, ⟨.u32, none, .result ⟨1⟩⟩,
    ⟨.bool, none, .result ⟨4⟩⟩, ⟨.u32, none, .result ⟨6⟩⟩, ⟨.u32, none, .blockParam ⟨4⟩⟩,
    ⟨.u32, none, .result ⟨12⟩⟩, ⟨.bool, none, .result ⟨13⟩⟩]
  insts := #[ ⟨.var {}, [⟨2⟩], ⟨1⟩⟩, ⟨.loop ⟨some ⟨2⟩, ⟨3⟩, ⟨4⟩, [⟨10⟩, ⟨11⟩]⟩, [⟨3⟩], ⟨1⟩⟩,
    ⟨.ret (some (.ssa ⟨3⟩)), [], ⟨1⟩⟩,
    ⟨.nextIteration ⟨1⟩ [.constant ⟨0⟩], [], ⟨2⟩⟩,
    ⟨.binary .lessThan (.ssa ⟨1⟩) (.ssa ⟨0⟩), [⟨4⟩], ⟨3⟩⟩,
    ⟨.conditional ⟨.ssa ⟨4⟩, ⟨5⟩, ⟨6⟩, [⟨8⟩]⟩, [], ⟨3⟩⟩,
    ⟨.switch ⟨.ssa ⟨1⟩, [⟨[.value ⟨0⟩], ⟨7⟩⟩, ⟨[.otherwise], ⟨8⟩⟩], [⟨14⟩, ⟨15⟩]⟩, [⟨5⟩], ⟨3⟩⟩,
    ⟨.continueTo ⟨1⟩ [.ssa ⟨5⟩], [], ⟨3⟩⟩,
    ⟨.exitIf ⟨5⟩ [], [], ⟨5⟩⟩,
    ⟨.store (.ssa ⟨2⟩) (.ssa ⟨1⟩), [], ⟨6⟩⟩,
    ⟨.exitLoop ⟨1⟩ [.ssa ⟨1⟩], [], ⟨6⟩⟩,
    ⟨.breakIf (.ssa ⟨8⟩) ⟨1⟩ [.ssa ⟨7⟩] [.ssa ⟨6⟩], [], ⟨4⟩⟩,
    ⟨.binary .add (.ssa ⟨6⟩) (.constant ⟨1⟩), [⟨7⟩], ⟨4⟩⟩,
    ⟨.binary .lessThan (.ssa ⟨0⟩) (.ssa ⟨7⟩), [⟨8⟩], ⟨4⟩⟩,
    ⟨.exitSwitch ⟨6⟩ [.constant ⟨1⟩], [], ⟨7⟩⟩,
    ⟨.exitSwitch ⟨6⟩ [.constant ⟨0⟩], [], ⟨8⟩⟩]
  blocks := #[ {}, { insts := [⟨0⟩, ⟨1⟩, ⟨2⟩] }, { insts := [⟨3⟩], parent := some ⟨1⟩ },
    { insts := [⟨4⟩, ⟨5⟩, ⟨6⟩, ⟨7⟩], params := [⟨1⟩], parent := some ⟨1⟩, inbound := [⟨3⟩, ⟨11⟩] },
    { insts := [⟨12⟩, ⟨13⟩, ⟨11⟩], params := [⟨6⟩], parent := some ⟨1⟩, inbound := [⟨7⟩] },
    { insts := [⟨8⟩], parent := some ⟨5⟩ },
    { insts := [⟨9⟩, ⟨10⟩], parent := some ⟨5⟩ },
    { insts := [⟨14⟩], parent := some ⟨6⟩ },
    { insts := [⟨15⟩], parent := some ⟨6⟩ }]
  functions := #[⟨"search", [⟨0⟩], .u32, .none, none, ⟨1⟩⟩]

theorem searching_ended (ref : FuncId) (function : Function) (_ : searching.function ref = .ok function)
    (inner : BlockId) (b : Block) (_ : searching.Under function.entry inner)
    (found : searching.block inner = .ok b) : searching.Ended b.insts :=
  Module.forall_block (P := fun _ b => searching.Ended b.insts) (by decide) found

theorem searching_functions_arranged : ∃ assembly, searching.lower {} = .ok assembly ∧
    assembly.functions.toList.map (fun code => (code.locals.size, code.blocks.length)) = [(1, 11)] ∧
    ∀ code ∈ assembly.functions.toList, code.Arranged := by
  obtain ⟨assembly, lowered, size⟩ : ∃ assembly, searching.lower {} = .ok assembly ∧
      (assembly.functions.toList.map fun code => (code.locals.size, code.blocks.length)) = [(1, 11)] := by
    decide +kernel
  exact ⟨assembly, lowered, size, functions_arranged lowered searching_ended⟩

end Shader.Lower
