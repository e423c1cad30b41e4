import Shader.Proofs.Lowering.Plan
import Shader.Proofs.Lowering.Program

/-!
The basic blocks of a lowered function are those of its plan.

Code is the lowering of a basic block of a plan if it starts with the label of its place, joins the values
that meet there, carries out its instructions and branches to the labels of the places that its ending
leads to. Blocks and constructs have the labels that the finished lowering has for them; the headers of
loops have labels that belong to no key, and these are collected on the way.
-/
namespace Shader.Binary

open List

/-- Whether an instruction says where the branches that follow it meet again. -/
def Opcode.isMerge : Opcode → Bool
  | .selectionMerge | .loopMerge => true
  | _ => false

/-- A block that starts with a label and holds no other one. -/
def BasicBlock.Whole (block : BasicBlock) : Prop :=
  block.label.op = .label ∧ ∀ inst ∈ block.body.toList, inst.op ≠ .label

namespace FunctionCode

/-- Instructions without a label all go into the current block. -/
theorem extend_unlabelled (code : FunctionCode) {insts : List Instruction}
    (unlabelled : ∀ inst ∈ insts, inst.op ≠ .label) :
    code.extend insts = { code with current := { code.current with body := code.current.body ++ insts.toArray } } := by
  induction insts generalizing code with
  | nil => simp
  | cons inst rest ih =>
    have first : code.append inst =
        { code with current := { code.current with body := code.current.body.push inst } } := by
      simp [append, unlabelled inst]
    have later := ih (code.append inst) fun other member => unlabelled other (by simp [member])
    rw [extend, foldl_cons, ← extend, later, first]
    simp

/-- Adding the instructions of a whole block closes the current one. -/
theorem extend_whole (code : FunctionCode) {block : BasicBlock} (whole : block.Whole) : code.extend block.instructions =
      { code with closed := code.closed.push code.current, current := block } := by
  have opened : code.append block.label =
      { code with closed := code.closed.push code.current, current := ⟨block.label, #[]⟩ } := by
    simp [append, whole.1]
  rw [BasicBlock.instructions, extend, foldl_cons, ← extend, opened, extend_unlabelled _ whole.2]
  simp

theorem blocks_extend (code : FunctionCode) {blocks : List BasicBlock} (whole : ∀ block ∈ blocks, block.Whole) :
    (code.extend (blocks.flatMap BasicBlock.instructions)).blocks = code.blocks ++ blocks := by
  induction blocks generalizing code with
  | nil => simp
  | cons block rest ih =>
    rw [flatMap_cons, ← extend_extend, extend_whole code (whole block (by simp)),
      ih _ fun other member => whole other (by simp [member])]
    simp [FunctionCode.blocks]

end FunctionCode
end Shader.Binary

namespace Shader.Lower

open Binary Instruction List FunctionCode

variable {m : Module} {L : Ledger}
variable {kind : Kind} {code : List Instruction} {jump : Jump} {block : BlockId} {label merge header : Word}
  {codes : List (List Instruction)} {id : InstId}
variable {segment : Segment} {first second : List Segment} {code' last : List Instruction} {home : BlockId}
  {continuing : Word}

/-- The word labels the place. -/
def Names (L : Ledger) (heads : List (InstId × Word)) : Place → Word → Prop
  | .block id, word => (Key.label id, word) ∈ L.state.bindings
  | .merge construct, word => (Key.merge construct, word) ∈ L.state.bindings
  | .header loop, word => (loop, word) ∈ heads ∧ word ∈ L.loose

theorem Names.mono {heads more : List (InstId × Word)} {place : Place} {word : Word}
    (named : Names L heads place word) (within : heads ⊆ more) : Names L more place word := by
  cases place with
  | block id => exact named
  | header loop => exact ⟨within named.1, named.2⟩
  | merge construct => exact named

/-- Where a conditional goes to on one of its sides. -/
def branchPlace (m : Module) (id : InstId) (inst : Inst) (block : BlockId) : Place :=
  match needsBlock m (!inst.results.isEmpty) block with
  | .ok true => .block block
  | _ => .merge id

/-- Where control goes first in a loop. -/
def entryPlace (id : InstId) (l : Loop) : Place :=
  match l.initializer with
  | none => .header id
  | some initializer => .block initializer

/-- The blocks that lead to the place after a construct without a branch of their own. -/
def implicitExits : Kind → List BlockId
  | .conditional c => [c.whenTrue, c.whenFalse]
  | _ => []

section
variable (m : Module) (L : Ledger) (names : Place → Word → Prop)

/-- The end of a block, with branches to the labels of places. -/
def BranchesTo (within : Enclosing) : Kind → Instruction → Prop
  | .ret (some value), code => ∃ id, Resolves value id L.state ∧ code = ⟨.returnValue, none, none, [.id id]⟩
  | .ret none, code => code = ⟨.returnVoid, none, none, []⟩
  | .breakIf condition _ _ _, code => ∃ id loop merge header, Resolves condition id L.state ∧
      within.loop = some loop ∧ names (.merge loop) merge ∧ names (.header loop) header ∧
      code = branchOn id merge header
  | .continueTo target _, code => ∃ inst l label, m.inst target = .ok inst ∧ inst.kind = .loop l ∧
      names (.block l.continuing) label ∧ code = branchTo label
  | .exitIf _ _, code => ∃ construct label, within.conditional = some construct ∧
      names (.merge construct) label ∧ code = branchTo label
  | .exitLoop _ _, code => ∃ loop label, within.loop = some loop ∧ names (.merge loop) label ∧ code = branchTo label
  | .exitSwitch _ _, code => ∃ construct label, within.switch = some construct ∧
      names (.merge construct) label ∧ code = branchTo label
  | .nextIteration _ _, code => ∃ loop label, within.loop = some loop ∧ names (.header loop) label ∧
      code = branchTo label
  | .terminate, code => code = ⟨.kill, none, none, []⟩
  | _, code => code = deadEnd

/-- The code that ends a basic block. -/
def JumpCode (within : Enclosing) : Jump → List Instruction → Prop
  | .terminator _ kind, code => ∃ last, BranchesTo m L names within kind last ∧ code = [last]
  | .conditional id inst c, code => ∃ merge condition whenTrue whenFalse, names (.merge id) merge ∧
      Resolves c.condition condition L.state ∧ names (branchPlace m id inst c.whenTrue) whenTrue ∧
      names (branchPlace m id inst c.whenFalse) whenFalse ∧
      code = [mergeAt merge, branchOn condition whenTrue whenFalse]
  | .switch id s, code => ∃ merge selector default otherwise targets, names (.merge id) merge ∧
      Resolves s.condition selector L.state ∧ defaultBlock id s = .ok default ∧
      names (.block default) otherwise ∧ Forall₂ (CaseTargets L.state) s.cases targets ∧
      code = [mergeAt merge, selectOn selector otherwise targets.flatten]
  | .enter id l, code => ∃ label, names (entryPlace id l) label ∧ code = [branchTo label]
  | .head id l, code => ∃ merge continuing label, names (.merge id) merge ∧
      names (.block l.continuing) continuing ∧ names (.block l.body) label ∧
      code = [loopAt merge continuing, branchTo label]
  | .again loop, code => ∃ label, names (.header loop) label ∧ code = [branchTo label]
  | .onward construct, code => ∃ label, names (.merge construct) label ∧ code = [branchTo label]
  | .stuck, code => code = [deadEnd]

/-- The phis at the start of a basic block. -/
def JoinCode : Joins → List Instruction → Prop
  | .nothing, code => code = []
  | .params block, code => IncomingPhis m L.state block code
  | .results construct, code => ∃ inst, m.inst construct = .ok inst ∧
      ExitPhis m L.state inst inst.kind.exits (implicitExits inst.kind) code

/-- The code of an instruction that stays within its basic block. -/
def PlainCode (id : InstId) (code : List Instruction) : Prop :=
  ∃ inst, m.inst id = .ok inst ∧ inst.kind.isTerminator = false ∧ inst.kind.isControl = false ∧
    (∀ only ∈ code, only.op.isOrdinary = true) ∧
    (inst.Shaped → ∃ found, recipe m L.state.pool inst = .ok found ∧ Realises L inst found code)

/-- The basic block is the lowering of the segment. -/
def SegmentCode (segment : Segment) (block : BasicBlock) : Prop :=
  ∃ label phis codes last, names segment.place label ∧ block.label = labelled label ∧
    JoinCode m L segment.joins phis ∧ Forall₂ (PlainCode m L) segment.insts codes ∧
    JumpCode m L names segment.within segment.jump last ∧
    block.body.toList = phis ++ (codes.flatten ++ last)

/-- The code is the lowering of the segments in order. -/
def SegmentsCode (segments : List Segment) (code : List Instruction) : Prop :=
  ∃ blocks, Forall₂ (SegmentCode m L names) segments blocks ∧ code = blocks.flatMap BasicBlock.instructions

/-- The code is the lowering of the flow. -/
def FlowCode (within : Enclosing) (flow : Flow) (code : List Instruction) : Prop :=
  ∃ codes last rest, Forall₂ (PlainCode m L) flow.insts codes ∧
    JumpCode m L names within flow.jump last ∧ SegmentsCode m L names flow.rest rest ∧
    code = codes.flatten ++ (last ++ rest)

end

section
variable {names more : Place → Word → Prop} {within : Enclosing}

section
variable (implied : ∀ place word, names place word → more place word)
include implied

theorem BranchesTo.mono {code : Instruction} (branches : BranchesTo m L names within kind code) :
    BranchesTo m L more within kind code := by
  cases kind with
  | breakIf condition target next exit =>
    obtain ⟨id, loop, merge, header, resolved, inside, toMerge, toHeader, same⟩ := branches
    exact ⟨id, loop, merge, header, resolved, inside, implied _ _ toMerge, implied _ _ toHeader, same⟩
  | continueTo target args =>
    obtain ⟨inst, l, label, found, loop, named, same⟩ := branches
    exact ⟨inst, l, label, found, loop, implied _ _ named, same⟩
  | exitIf target args | exitLoop target args | exitSwitch target args | nextIteration target args =>
    obtain ⟨construct, label, inside, named, same⟩ := branches
    exact ⟨construct, label, inside, implied _ _ named, same⟩
  | ret value => cases value <;> exact branches
  | _ => exact branches

theorem JumpCode.mono (jumps : JumpCode m L names within jump code) : JumpCode m L more within jump code := by
  cases jump with
  | terminator id kind =>
    obtain ⟨last, branches, same⟩ := jumps
    exact ⟨last, branches.mono implied, same⟩
  | conditional id inst c =>
    obtain ⟨merge, condition, whenTrue, whenFalse, merges, decides, toTrue, toFalse, same⟩ := jumps
    exact ⟨merge, condition, whenTrue, whenFalse, implied _ _ merges, decides, implied _ _ toTrue,
      implied _ _ toFalse, same⟩
  | switch id s =>
    obtain ⟨merge, selector, default, otherwise, targets, merges, selects, found, named, cases, same⟩ := jumps
    exact ⟨merge, selector, default, otherwise, targets, implied _ _ merges, selects, found,
      implied _ _ named, cases, same⟩
  | head id l =>
    obtain ⟨merge, continuing, label, merges, continues, named, same⟩ := jumps
    exact ⟨merge, continuing, label, implied _ _ merges, implied _ _ continues, implied _ _ named, same⟩
  | enter id l | again loop | onward construct =>
    obtain ⟨label, named, same⟩ := jumps
    exact ⟨label, implied _ _ named, same⟩
  | stuck => exact jumps

theorem SegmentCode.mono {block : BasicBlock}
    (laid : SegmentCode m L names segment block) : SegmentCode m L more segment block := by
  obtain ⟨label, phis, codes, last, named, opens, joins, plain, jumps, body⟩ := laid
  exact ⟨label, phis, codes, last, implied _ _ named, opens, joins, plain, jumps.mono implied, body⟩

theorem SegmentsCode.mono {segments : List Segment} (laid : SegmentsCode m L names segments code) :
    SegmentsCode m L more segments code := by
  obtain ⟨blocks, each, same⟩ := laid
  exact ⟨blocks, each.imp fun _ _ => SegmentCode.mono implied, same⟩

end

theorem SegmentsCode.nil : SegmentsCode m L names [] [] := ⟨[], .nil, rfl⟩

theorem SegmentsCode.append (one : SegmentsCode m L names first code) (two : SegmentsCode m L names second code') :
    SegmentsCode m L names (first ++ second) (code ++ code') := by
  obtain ⟨blocks, each, rfl⟩ := one
  obtain ⟨blocks', each', rfl⟩ := two
  exact ⟨blocks ++ blocks', rel_append each each', by rw [flatMap_append]⟩

theorem SegmentsCode.cons (segment : Segment) {segments : List Segment} {phis : List Instruction}
    (named : names segment.place label) (joins : JoinCode m L segment.joins phis)
    (plain : Forall₂ (PlainCode m L) segment.insts codes)
    (jumps : JumpCode m L names segment.within segment.jump last) (after : SegmentsCode m L names segments code) :
    SegmentsCode m L names (segment :: segments) (labelled label :: (phis ++ (codes.flatten ++ (last ++ code)))) := by
  obtain ⟨blocks, each, rfl⟩ := after
  refine ⟨⟨labelled label, (phis ++ (codes.flatten ++ last)).toArray⟩ :: blocks, .cons ?_ each, ?_⟩
  · exact ⟨label, phis, codes, last, named, rfl, joins, plain, jumps, rfl⟩
  · simp [BasicBlock.instructions]

/-- A flow becomes basic blocks when its start has a label. -/
theorem FlowCode.segments {flow : Flow} {place : Place} {joins : Joins} {phis : List Instruction}
    (laid : FlowCode m L names within flow code) (named : names place label) (joined : JoinCode m L joins phis) :
    SegmentsCode m L names (flow.segments place home within joins) (labelled label :: (phis ++ code)) := by
  obtain ⟨codes, last, rest, plain, jumps, after, rfl⟩ := laid
  exact .cons ⟨place, home, within, joins, flow.insts, flow.jump⟩ named joined plain jumps after

end

/-- The labels in scope are those of the enclosing constructs. -/
structure Surrounds (names : Place → Word → Prop) (within : Enclosing) (scopes : Scopes) : Prop where
  conditional : ∀ word, scopes.ifMerge = some word → ∃ id, within.conditional = some id ∧ names (.merge id) word
  switch : ∀ word, scopes.switchMerge = some word → ∃ id, within.switch = some id ∧ names (.merge id) word
  merge : ∀ word, scopes.loopMerge = some word → ∃ id, within.loop = some id ∧ names (.merge id) word
  header : ∀ word, scopes.loopHeader = some word → ∃ id, within.loop = some id ∧ names (.header id) word

section
variable {names more : Place → Word → Prop} {within : Enclosing} {scopes : Scopes}

theorem surrounds_nothing : Surrounds names {} {} := by
  constructor <;> rintro _ ⟨⟩

section
variable (surrounds : Surrounds names within scopes)
include surrounds

theorem Surrounds.mono (implied : ∀ place word, names place word → more place word) : Surrounds more within scopes := by
  constructor <;> intro word scope
  · exact (surrounds.conditional word scope).imp fun _ => .imp_right (implied _ _)
  · exact (surrounds.switch word scope).imp fun _ => .imp_right (implied _ _)
  · exact (surrounds.merge word scope).imp fun _ => .imp_right (implied _ _)
  · exact (surrounds.header word scope).imp fun _ => .imp_right (implied _ _)

theorem Surrounds.inConditional (named : names (.merge id) merge) :
    Surrounds names { within with conditional := some id } { scopes with ifMerge := some merge } :=
  { surrounds with conditional := by rintro _ ⟨⟩; exact ⟨id, rfl, named⟩ }

theorem Surrounds.inSwitch (named : names (.merge id) merge) :
    Surrounds names { within with switch := some id } { scopes with switchMerge := some merge } :=
  { surrounds with switch := by rintro _ ⟨⟩; exact ⟨id, rfl, named⟩ }

theorem Surrounds.inLoop (named : names (.merge id) merge) (headed : names (.header id) header) :
    Surrounds names { within with loop := some id }
      { scopes with loopHeader := some header, loopMerge := some merge } :=
  { surrounds with
    merge := by rintro _ ⟨⟩; exact ⟨id, rfl, named⟩
    header := by rintro _ ⟨⟩; exact ⟨id, rfl, headed⟩ }

/-- Branches to labels in scope are branches to the places around them. -/
theorem Surrounds.branches
    (labels : ∀ block label, (Key.label block, label) ∈ L.state.bindings → names (.block block) label)
    {code : Instruction} (laid : TerminatorCode m L.state scopes kind code) :
    BranchesTo m L names within kind code := by
  cases kind with
  | ret value => cases value <;> exact laid
  | breakIf condition target next exit =>
    obtain ⟨id, merge, header, resolved, scope, scope', same⟩ := laid
    obtain ⟨loop, inside, merges⟩ := surrounds.merge merge scope
    obtain ⟨_, inside', heads⟩ := surrounds.header header scope'
    cases inside.symm.trans inside'
    exact ⟨id, loop, merge, header, resolved, inside, merges, heads, same⟩
  | continueTo target args =>
    obtain ⟨inst, l, label, found, loop, bound, same⟩ := laid
    exact ⟨inst, l, label, found, loop, labels _ _ bound, same⟩
  | exitIf target args =>
    obtain ⟨merge, scope, same⟩ := laid
    obtain ⟨construct, inside, named⟩ := surrounds.conditional merge scope
    exact ⟨construct, merge, inside, named, same⟩
  | exitLoop target args =>
    obtain ⟨merge, scope, same⟩ := laid
    obtain ⟨construct, inside, named⟩ := surrounds.merge merge scope
    exact ⟨construct, merge, inside, named, same⟩
  | exitSwitch target args =>
    obtain ⟨merge, scope, same⟩ := laid
    obtain ⟨construct, inside, named⟩ := surrounds.switch merge scope
    exact ⟨construct, merge, inside, named, same⟩
  | nextIteration target args =>
    obtain ⟨header, scope, same⟩ := laid
    obtain ⟨construct, inside, named⟩ := surrounds.header header scope
    exact ⟨construct, header, inside, named, same⟩
  | _ => exact laid

end

end

/-- The code is the lowering of the segments, and the headers of loops among them have labels of their
own. -/
def Realised (m : Module) (L : Ledger) (heads : List (InstId × Word)) (segments : List Segment)
    (code : List Instruction) : Prop :=
  ∃ own, own.map Prod.fst = headers segments ∧ SegmentsCode m L (Names L (heads ++ own)) segments code

/-- The code is the lowering of the flow, and the headers of loops in it have labels of their own. -/
def Runs (m : Module) (L : Ledger) (heads : List (InstId × Word)) (within : Enclosing) (flow : Flow)
    (code : List Instruction) : Prop :=
  ∃ own, own.map Prod.fst = headers flow.rest ∧ FlowCode m L (Names L (heads ++ own)) within flow code

section
variable {heads : List (InstId × Word)} {within : Enclosing}

theorem Realised.nil : Realised m L heads [] [] := ⟨[], rfl, .nil⟩

theorem Realised.append (one : Realised m L heads first code)
    (two : Realised m L heads second code') : Realised m L heads (first ++ second) (code ++ code') := by
  obtain ⟨own, listed, laid⟩ := one
  obtain ⟨own', listed', laid'⟩ := two
  refine ⟨own ++ own', by simp [headers_append, listed, listed'], .append (laid.mono ?_) (laid'.mono ?_)⟩
  · exact fun place word named => named.mono (by simp)
  · exact fun place word named => named.mono (by grind)

theorem Realised.flatMap {α : Type} {items : List α} {segments : α → List Segment}
    (each : Forall₂ (fun item code => Realised m L heads (segments item) code) items codes) :
    Realised m L heads (items.flatMap segments) codes.flatten := by
  induction each with
  | nil => exact .nil
  | cons first _ ih => exact first.append ih

theorem Runs.segments {flow : Flow} {phis : List Instruction} (laid : Runs m L heads within flow code) (place : Place)
    (home : BlockId) (joins : Joins) (plain : place.header? = none) (named : Names L heads place label)
    (joined : JoinCode m L joins phis) :
    Realised m L heads (flow.segments place home within joins) (labelled label :: (phis ++ code)) := by
  obtain ⟨own, listed, laid⟩ := laid
  exact ⟨own, by simp [Flow.segments, headers, plain, listed], laid.segments (named.mono (by simp)) joined⟩

/-- A basic block that jumps at once. -/
theorem realised_jump (place : Place) (home : BlockId) (joins : Joins) {phis : List Instruction}
    (plain : place.header? = none) (named : Names L heads place label) (joined : JoinCode m L joins phis)
    (jumps : JumpCode m L (Names L heads) within jump last) :
    Realised m L heads [⟨place, home, within, joins, [], jump⟩] (labelled label :: (phis ++ last)) := by
  have laid : Runs m L heads within ⟨[], jump, []⟩ last :=
    ⟨[], rfl, [], last, [], .nil, by rwa [append_nil], .nil, by simp⟩
  exact laid.segments place home joins plain named joined

end

section
variable {body : Enclosing → BlockId → Flow} {described : Scopes → BlockId → List Instruction → Prop}
  {reached : BlockId → Prop} {heads : List (InstId × Word)} {within : Enclosing} {scopes : Scopes}

/-- What is laid out for the instructions of a block is the lowering of its flow. -/
def Sound (m : Module) (L : Ledger) (reached : BlockId → Prop) (body : Enclosing → BlockId → Flow)
    (described : Scopes → BlockId → List Instruction → Prop) : Prop :=
  ∀ {heads within scopes block code}, reached block → Surrounds (Names L heads) within scopes →
    described scopes block code → Runs m L heads within (body within block) code

section
variable (sound : Sound m L reached body described)
include sound

theorem Sound.child (within_reach : reached block)
    (surrounds : Surrounds (Names L heads) within scopes) (laid : BlockCode m L described scopes block code) :
    Realised m L heads (m.childSegments body within block) code := by
  cases laid with
  | full found inhabited bound joins laid =>
    have runs : Runs m L heads within (body within block) _ := sound within_reach surrounds laid
    have laid := runs.segments (.block block) block (.params block) rfl bound joins
    simpa [Module.childSegments, found, inhabited] using laid
  | @onward b parent owner label merge found empty owned held results bound merges =>
    have jump : m.emptyJump b = .onward parent := by simp [Module.emptyJump, owned, held, results]
    have jumps : JumpCode m L (Names L heads) within (.onward parent) [branchTo merge] := ⟨merge, merges, rfl⟩
    simpa [Module.childSegments, found, empty, jump] using
      realised_jump (.block block) block .nothing rfl bound rfl jumps
  | @stuck b label found empty silent bound =>
    have jump : m.emptyJump b = .stuck := by
      unfold Module.emptyJump
      split
      · rfl
      · split
        · rfl
        · simp [silent _ _ ‹_› ‹_›]
    have jumps : JumpCode m L (Names L heads) within .stuck [deadEnd] := rfl
    simpa [Module.childSegments, found, empty, jump] using
      realised_jump (.block block) block .nothing rfl bound rfl jumps

/-- A branch of a conditional, and the place its label stands for. -/
theorem Sound.branch {inst : Inst} {needs : Bool}
    (within_reach : reached block) (surrounds : Surrounds (Names L heads) within scopes)
    (merges : (Key.merge id, merge) ∈ L.state.bindings)
    (decided : needsBlock m (!inst.results.isEmpty) block = .ok needs)
    (laid : BranchCode m L described scopes merge block needs label code) :
    Realised m L heads (m.branchSegments body within inst block) code ∧
      Names L heads (branchPlace m id inst block) label := by
  cases laid with
  | elided =>
    simp only [Module.branchSegments, branchPlace, decided]
    exact ⟨.nil, merges⟩
  | laid bound laid =>
    simp only [Module.branchSegments, branchPlace, decided]
    exact ⟨sound.child within_reach surrounds laid, bound⟩

theorem Sound.returns {loop : InstId}
    (within_reach : reached block) (surrounds : Surrounds (Names L heads) within scopes)
    (headed : Names L heads (.header loop) header) (bound : (Key.label block, continuing) ∈ L.state.bindings)
    (laid : ReturnCode m L described scopes header continuing block code) :
    Realised m L heads (m.returnSegments body within loop block) code := by
  cases laid with
  | finished ends laid =>
    simpa [Module.returnSegments, ends] using sound.child within_reach surrounds laid
  | unfinished open_ =>
    have jumps : JumpCode m L (Names L heads) within (.again loop) [branchTo header] := ⟨header, headed, rfl⟩
    simpa [Module.returnSegments, open_] using realised_jump (.block block) block .nothing rfl bound rfl jumps

end

/-- The code of a construct: the branch into it, its basic blocks, and the start of the basic block after
it. -/
def Unfolds (m : Module) (L : Ledger) (heads : List (InstId × Word)) (body : Enclosing → BlockId → Flow)
    (within : Enclosing) (id : InstId) (inst : Inst) (code : List Instruction) : Prop :=
  ∃ jump segments own last rest merge phis,
    m.constructSegments body within id inst = some (jump, segments) ∧ own.map Prod.fst = headers segments ∧
    JumpCode m L (Names L (heads ++ own)) within jump last ∧
    SegmentsCode m L (Names L (heads ++ own)) segments rest ∧
    (Key.merge id, merge) ∈ L.state.bindings ∧ JoinCode m L (.results id) phis ∧
    code = last ++ (rest ++ labelled merge :: phis)

section
variable (sound : Sound m L reached body described)
include sound

/-- The code of a loop between the branch into it and the place after it. -/
theorem Sound.loop {l : Loop} {bodyLabel : Word}
    {entry headPhis bodyCode back : List Instruction} (below : ∀ child ∈ (Kind.loop l).children, reached child)
    (surrounds : Surrounds (Names L (heads ++ [(id, header)])) { within with loop := some id } scopes)
    (merges : (Key.merge id, merge) ∈ L.state.bindings) (fresh : header ∈ L.loose)
    (bodyBound : (Key.label l.body, bodyLabel) ∈ L.state.bindings)
    (continuingBound : (Key.label l.continuing, continuing) ∈ L.state.bindings)
    (enters : EntryCode m L described scopes header l.initializer entry)
    (headJoins : IncomingPhis m L.state l.body headPhis) (bodyLaid : described scopes l.body bodyCode)
    (returns : ReturnCode m L described scopes header continuing l.continuing back) :
    ∃ own first rest, own.map Prod.fst = headers (m.loopSegments body { within with loop := some id } id l) ∧
      Names L (heads ++ own) (entryPlace id l) first ∧
      SegmentsCode m L (Names L (heads ++ own)) (m.loopSegments body { within with loop := some id } id l) rest ∧
      entry ++ labelled header :: (headPhis ++ loopAt merge continuing :: branchTo bodyLabel ::
        labelled bodyLabel :: (bodyCode ++ back)) = branchTo first :: rest := by
  have headed : Names L (heads ++ [(id, header)]) (.header id) header := ⟨by simp, fresh⟩
  -- What stands before the header: the branch into the loop, and its initializer.
  obtain ⟨first, before, leads, initial, split⟩ : ∃ first before,
      Names L (heads ++ [(id, header)]) (entryPlace id l) first ∧
      Realised m L (heads ++ [(id, header)])
        (l.initializer.toList.flatMap (m.childSegments body { within with loop := some id })) before ∧
      entry = branchTo first :: before := by
    generalize initializer : l.initializer = found at enters
    cases enters with
    | direct => exact ⟨header, [], by rw [entryPlace, initializer]; exact headed, .nil, rfl⟩
    | @through block label code bound laid =>
      have reached' : reached block := below block (by simp [Kind.children, initializer])
      refine ⟨label, code, by rw [entryPlace, initializer]; exact bound, ?_, rfl⟩
      simpa using sound.child reached' surrounds laid
  have bodies := (sound (below l.body (by simp [Kind.children])) surrounds bodyLaid).segments
    (.block l.body) l.body .nothing rfl bodyBound rfl
  have backs := sound.returns (below l.continuing (by simp [Kind.children])) surrounds headed continuingBound returns
  obtain ⟨own, listed, initial⟩ := initial
  obtain ⟨own', listed', after⟩ := bodies.append backs
  have left : heads ++ [(id, header)] ++ own ⊆ heads ++ (own ++ (id, header) :: own') := by grind
  have right : heads ++ [(id, header)] ++ own' ⊆ heads ++ (own ++ (id, header) :: own') := by grind
  have jumps : JumpCode m L (Names L (heads ++ (own ++ (id, header) :: own'))) { within with loop := some id }
      (.head id l) [loopAt merge continuing, branchTo bodyLabel] :=
    ⟨merge, continuing, bodyLabel, merges, continuingBound, bodyBound, rfl⟩
  have joined : JoinCode m L (.params l.body) headPhis := headJoins
  have onwards := SegmentsCode.cons ⟨.header id, l.body, _, .params l.body, [], .head id l⟩
    (headed.mono (by grind)) joined .nil jumps (after.mono fun _ _ named => named.mono right)
  refine ⟨own ++ (id, header) :: own', first, _, ?_, leads.mono (by grind),
    .append (initial.mono fun _ _ named => named.mono left) onwards, ?_⟩
  · simp only [Module.loopSegments, map_append, map_cons, listed, listed', headers_append]
    simp [headers, Place.header?]
  · simp [split]

theorem Sound.unfolds {inst : Inst} (held : m.inst id = .ok inst)
    (control : inst.kind.isControl = true) (below : ∀ child ∈ inst.kind.children, reached child)
    (surrounds : Surrounds (Names L heads) within scopes) (laid : InstCode m L described scopes id inst code) :
    Unfolds m L heads body within id inst code := by
  unfold Unfolds Module.constructSegments
  cases laid with
  | plain _ whole => cases whole.symm.trans control
  | terminator ends => cases (Kind.not_isControl ends).symm.trans control
  | @conditional c merge condition whenTrue whenFalse needTrue needFalse trueCode falseCode phis kind merges
      decides trueNeeds falseNeeds trueLaid falseLaid joins =>
    have inside : Surrounds (Names L heads) { within with conditional := some id } _ :=
      surrounds.inConditional merges
    have first := sound.branch (below c.whenTrue (by simp [kind, Kind.children])) inside merges trueNeeds trueLaid
    have second := sound.branch (below c.whenFalse (by simp [kind, Kind.children])) inside merges falseNeeds falseLaid
    obtain ⟨own, listed, segments⟩ := first.1.append second.1
    have wider : ∀ place word, Names L heads place word → Names L (heads ++ own) place word :=
      fun _ _ named => named.mono (by simp)
    have joined : JoinCode m L (.results id) phis := ⟨inst, held, by rw [kind]; exact joins⟩
    rw [kind]
    refine ⟨_, _, own, _, trueCode ++ falseCode, merge, phis, rfl, ?_,
      ⟨merge, condition, whenTrue, whenFalse, merges, decides, wider _ _ first.2, wider _ _ second.2, rfl⟩, ?_,
      merges, joined, by simp⟩
    · simpa using listed
    · simpa using segments
  | @loop l merge header bodyLabel continuing entry headPhis bodyCode back phis kind merges fresh bodyBound
      continuingBound enters headJoins bodyLaid returns joins =>
    have wider : ∀ place word, Names L heads place word → Names L (heads ++ [(id, header)]) place word :=
      fun _ _ named => named.mono (by simp)
    have inside : Surrounds (Names L (heads ++ [(id, header)])) { within with loop := some id } _ :=
      (surrounds.mono wider).inLoop merges ⟨by simp, fresh⟩
    rw [kind] at below
    obtain ⟨own, first, rest, listed, leads, segments, split⟩ := sound.loop below inside merges fresh bodyBound
      continuingBound enters headJoins bodyLaid returns
    have joined : JoinCode m L (.results id) phis := ⟨inst, held, by rw [kind]; exact joins⟩
    have whole := congrArg (· ++ labelled merge :: phis) split
    rw [kind]
    refine ⟨_, _, own, _, rest, merge, phis, rfl, listed, ⟨first, leads, rfl⟩, segments, merges, joined, ?_⟩
    simpa using whole
  | @switch s merge selector otherwise default targets blocks phis kind merges selects defaults defaultBound cases
      laid joins =>
    have inside : Surrounds (Names L heads) { within with switch := some id } _ := surrounds.inSwitch merges
    have each : Forall₂ (fun case code => Realised m L heads
        (m.childSegments body { within with switch := some id } (Case.block case)) code) s.cases blocks := by
      refine forall₂_iff_zip.mpr ⟨laid.length_eq, fun member => ?_⟩
      have here := (forall₂_iff_zip.mp laid).2 member
      refine sound.child (below _ ?_) inside here
      rw [kind]
      exact mem_map_of_mem (of_mem_zip member).1
    obtain ⟨own, listed, segments⟩ := Realised.flatMap each
    have joined : JoinCode m L (.results id) phis := ⟨inst, held, by rw [kind]; exact joins⟩
    rw [kind]
    exact ⟨_, _, own, _, _, merge, phis, rfl, listed,
      ⟨merge, selector, default, otherwise, targets, merges, selects, defaults, defaultBound, cases, rfl⟩,
      segments, merges, joined, by simp⟩

theorem Sound.insts {insts : List InstId} (inhabited : insts ≠ []) (ended : m.Ended insts)
    (below : ∀ id ∈ insts, ∀ inst, m.inst id = .ok inst → ∀ child ∈ inst.kind.children, reached child)
    (surrounds : Surrounds (Names L heads) within scopes)
    (laid : Forall₂ (fun id code => ∃ inst, m.inst id = .ok inst ∧
      InstCode m L described scopes id inst code) insts codes) :
    Runs m L heads within (m.instFlow body home within insts) codes.flatten := by
  induction laid with
  | nil => exact absurd rfl inhabited
  | @cons id code rest codes here laid ih =>
    obtain ⟨inst, held, here⟩ := here
    have last := ended.head held
    have onward : rest ≠ [] → Runs m L heads within (m.instFlow body home within rest) codes.flatten :=
      fun more => ih more ended.tail fun other member => below other (by simp [member])
    cases ends : inst.kind.isTerminator with
    | true =>
      cases last.mp ends
      cases laid
      cases here with
      | terminator _ laid =>
        rw [Module.instFlow_terminator held ends]
        have branches := surrounds.branches (fun _ _ bound => bound) laid
        exact ⟨[], rfl, [], _, [], .nil, ⟨_, by rwa [append_nil], rfl⟩, .nil, by simp⟩
      | plain open_ => cases open_.symm.trans ends
      | conditional kind | loop kind | switch kind => rw [kind] at ends; cases ends
    | false =>
      have more : rest ≠ [] := fun none => by simp [last.mpr none] at ends
      have later := onward more
      cases control : inst.kind.isControl with
      | true =>
        obtain ⟨jump, segments, own, last, inner, merge, phis, opens, listed, jumps, bodies, merges, joins, rfl⟩ :=
          sound.unfolds held control (below id (by simp) inst held) surrounds here
        obtain ⟨own', listed', after⟩ := later.segments (.merge id) home (.results id) rfl merges joins
        rw [Module.instFlow_construct held opens]
        have left : ∀ place word, Names L (heads ++ own) place word → Names L (heads ++ (own ++ own')) place word :=
          fun _ _ named => named.mono (by simp)
        have right : ∀ place word, Names L (heads ++ own') place word → Names L (heads ++ (own ++ own')) place word :=
          fun _ _ named => named.mono (by grind)
        refine ⟨own ++ own', by simp [headers_append, listed, listed'], [], last, _, .nil, jumps.mono left,
          (bodies.mono left).append (after.mono right), ?_⟩
        simp
      | false =>
        obtain ⟨own, listed, plains, last, after, each, jumps, bodies, same⟩ := later
        rw [Module.instFlow_plain held ends control]
        cases here with
        | plain open_ whole ordinary realised =>
          refine ⟨own, listed, code :: plains, last, after, .cons ?_ each, jumps, bodies, by simp [same]⟩
          exact ⟨inst, held, open_, whole, ordinary, realised⟩
        | terminator ends' => cases ends'.symm.trans ends
        | conditional kind | loop kind | switch kind => rw [kind] at control; cases control

end

end

/-- In every block below, only the last instruction ends the block. -/
def EndedBelow (m : Module) (block : BlockId) : Prop :=
  ∀ inner b, m.Under block inner → m.block inner = .ok b → m.Ended b.insts

/-- The code of a block whose blocks are all ended is the lowering of its flow. -/
theorem bodyCode_sound (depth : Nat) : Sound m L (EndedBelow m) (m.bodyFlow depth) (BodyCode m L depth) := by
  induction depth with
  | zero => exact fun _ _ laid => laid.elim
  | succ depth ih =>
    intro heads within scopes block code ended surrounds laid
    obtain ⟨b, found, ⟨empty, rfl⟩ | ⟨inhabited, codes, rfl, each⟩⟩ := laid
    · rw [Module.bodyFlow, found]
      simp only [empty]
      exact ⟨[], rfl, [], [deadEnd], [], .nil, rfl, .nil, rfl⟩
    · rw [Module.bodyFlow, found]
      refine ih.insts inhabited (ended block b .refl found) ?_ surrounds each
      intro id member inst held child owned inner b' under
      exact ended inner b' (.trans (.child .refl found member held owned) under)

theorem JoinCode.phis {joins : Joins} (joined : JoinCode m L joins code) :
    ∀ inst ∈ code, inst.op = .phi := by
  cases joins with
  | nothing =>
    cases joined
    simp
  | params block =>
    obtain ⟨b, -, each⟩ := joined
    intro inst member
    obtain ⟨_, -, ty, id, pairs, -, -, rfl⟩ := forall₂_mem_right each member
    rfl
  | results construct =>
    obtain ⟨_, -, each⟩ := joined
    intro inst member
    obtain ⟨_, -, ty, id, pairs, _, _, -, -, -, -, rfl⟩ := forall₂_mem_right each member
    rfl

theorem BranchesTo.isTerminator {names : Place → Word → Prop} {within : Enclosing} {code : Instruction}
    (branches : BranchesTo m L names within kind code) : code.op.isTerminator = true := by
  cases kind with
  | ret value =>
    cases value with
    | none => cases branches; rfl
    | some value => obtain ⟨_, _, rfl⟩ := branches; rfl
  | breakIf => obtain ⟨_, _, _, _, _, _, _, _, rfl⟩ := branches; rfl
  | continueTo => obtain ⟨_, _, _, _, _, _, rfl⟩ := branches; rfl
  | exitIf | exitLoop | exitSwitch | nextIteration => obtain ⟨_, _, _, _, rfl⟩ := branches; rfl
  | _ => cases branches; rfl

/-- A basic block ends in one branch, and what stands before the branch declares its merge. -/
theorem JumpCode.ends {names : Place → Word → Prop} {within : Enclosing} (jumps : JumpCode m L names within jump code) :
    ∃ (merge : Option Instruction) (last : Instruction),
      code = merge.toList ++ [last] ∧ (∀ inst ∈ merge, inst.op.isMerge = true) ∧ last.op.isTerminator = true := by
  cases jump with
  | terminator id kind =>
    obtain ⟨last, branches, rfl⟩ := jumps
    exact ⟨none, last, rfl, by simp, branches.isTerminator⟩
  | conditional id inst c =>
    obtain ⟨_, _, _, _, -, -, -, -, rfl⟩ := jumps
    exact ⟨some _, _, rfl, by rintro _ ⟨⟩; rfl, rfl⟩
  | switch id s =>
    obtain ⟨_, _, _, _, _, -, -, -, -, -, rfl⟩ := jumps
    exact ⟨some _, _, rfl, by rintro _ ⟨⟩; rfl, rfl⟩
  | head id l =>
    obtain ⟨_, _, _, -, -, -, rfl⟩ := jumps
    exact ⟨some _, _, rfl, by rintro _ ⟨⟩; rfl, rfl⟩
  | enter | again | onward =>
    obtain ⟨_, -, rfl⟩ := jumps
    exact ⟨none, _, rfl, by simp, rfl⟩
  | stuck =>
    cases jumps
    exact ⟨none, _, rfl, by simp, rfl⟩

section
variable {names : Place → Word → Prop}

theorem PlainCode.ordinary {insts : List InstId} (plain : Forall₂ (PlainCode m L) insts codes) :
    ∀ inst ∈ codes.flatten, inst.op.isOrdinary = true := by
  intro inst member
  obtain ⟨code, listed, member⟩ := mem_flatten.mp member
  obtain ⟨_, -, _, -, -, -, ordinary, -⟩ := forall₂_mem_right plain listed
  exact ordinary inst member

/-- What a basic block is made of: phis, instructions that neither branch nor join, and its end. -/
theorem SegmentCode.parts {block : BasicBlock} (laid : SegmentCode m L names segment block) :
    ∃ phis, JoinCode m L segment.joins phis ∧ ∀ inst ∈ block.body.toList, inst ∈ phis ∨
      inst.op.isOrdinary = true ∨ inst.op.isMerge = true ∨ inst.op.isTerminator = true := by
  obtain ⟨label, phis, codes, last, -, -, joins, plain, jumps, body⟩ := laid
  obtain ⟨merge, final, rfl, merges, ends⟩ := jumps.ends
  refine ⟨phis, joins, fun inst member => ?_⟩
  rw [body] at member
  simp only [mem_append, Option.mem_toList, mem_singleton] at member
  rcases member with phi | ordinary | merge | rfl
  · exact .inl phi
  · exact .inr (.inl (PlainCode.ordinary plain inst ordinary))
  · exact .inr (.inr (.inl (merges inst merge)))
  · exact .inr (.inr (.inr ends))

theorem SegmentCode.whole {block : BasicBlock} (laid : SegmentCode m L names segment block) : block.Whole := by
  obtain ⟨phis, joins, parts⟩ := laid.parts
  obtain ⟨label, -, -, -, -, opens, -⟩ := laid
  refine ⟨by rw [opens]; rfl, fun inst member isLabel => ?_⟩
  rcases parts inst member with phi | other
  · cases (joins.phis inst phi).symm.trans isLabel
  · simp [isLabel, Opcode.isOrdinary, Opcode.isMerge, Opcode.isTerminator] at other

end

/-- The blocks of a function are those of its plan, and what stands before them are variables. -/
structure Planned (m : Module) (L : Ledger) (function : Function) (heads : List (InstId × Word))
    (code : FunctionCode) : Prop where
  listed : heads.map Prod.fst = headers (m.plan function)
  blocks : Forall₂ (SegmentCode m L (Names L heads)) (m.plan function) code.blocks
  locals : ∀ inst ∈ code.locals.toList, inst.op = .variableDecl

theorem planned_of_laid {ref : FuncId} {code : FunctionCode} (laid : FunctionLaid m L ref code)
    (ended : ∀ function, m.function ref = .ok function → EndedBelow m function.entry) :
    ∃ function heads, m.function ref = .ok function ∧ Planned m L function heads code := by
  obtain ⟨function, start, locals, body, opens, declared, laid, rfl⟩ := laid
  obtain ⟨label, bound, shape⟩ := opens.blocks
  have runs : Runs m L [] {} (m.bodyFlow (m.blocks.size + 1) {} function.entry) body :=
    bodyCode_sound _ (ended function opens.found) surrounds_nothing laid
  obtain ⟨heads, listed, blocks, each, same⟩ :=
    runs.segments (.block function.entry) function.entry .nothing rfl bound rfl
  have others := extend_others (start.addLocals locals) body
  refine ⟨function, heads, opens.found, listed, ?_, ?_⟩
  · cases each with
    | @cons _ first _ rest here each =>
      have whole : ∀ block ∈ rest, block.Whole := by
        intro block member
        obtain ⟨_, -, here⟩ := forall₂_mem_right each member
        exact here.whole
      -- The label of the first block is there from the start.
      obtain ⟨opened, split⟩ : first.label = labelled label ∧
          body = first.body.toList ++ rest.flatMap BasicBlock.instructions := by
        simpa [BasicBlock.instructions, eq_comm] using same
      have blocks : ((start.addLocals locals).extend body).blocks = first :: rest := by
        rw [split, ← extend_extend, blocks_extend _ whole,
          extend_unlabelled _ here.whole.2, shape]
        simp [blocks, addLocals, ← opened]
      rw [blocks]
      exact .cons here each
  · rw [others.2.2, shape]
    simpa [addLocals] using declared

/-- The functions of a lowered module are laid out as planned. -/
theorem planned_of_lower {options : Options} {assembly : Assembly} (lowers : m.lower options = .ok assembly)
    (ended : ∀ ref function, m.function ref = .ok function → EndedBelow m function.entry) :
    ∃ state e, Ran m options state ∧ assembly = state.out ∧
      Lowering m state e ∧ Forall₂ (fun index code => ∃ function heads, m.function ⟨index⟩ = .ok function ∧
        code ∈ e.functions ∧ Planned m ⟨state, e.loose⟩ function heads code)
        (range m.functions.size) assembly.functions.toList := by
  obtain ⟨⟨⟨⟩, state⟩, ran, same⟩ := bind_eq_ok.mp lowers
  cases same
  obtain ⟨e, lowering⟩ := lowering_of_run ran
  refine ⟨state, e, ran, rfl, lowering, ?_⟩
  rw [lowering.functions]
  obtain ⟨length, each⟩ := forall₂_iff_zip.mp lowering.builds.functions
  refine forall₂_iff_zip.mpr ⟨length, fun {index code} member => ?_⟩
  obtain ⟨function, heads, declared, planned⟩ := planned_of_laid (each member) (ended ⟨index⟩)
  exact ⟨function, heads, declared, (of_mem_zip member).2, planned⟩

end Shader.Lower
