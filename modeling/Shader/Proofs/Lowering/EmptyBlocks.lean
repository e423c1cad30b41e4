import Shader.Proofs.Lowering.BranchTargets

/-!
The phis that know about empty blocks.

A block that nothing ends leaves a construct without a branch of its own, so no list of branches mentions it. The
phis of a conditional count its empty branches besides the branches they are given. No other phi does: the label of
such a block is a source of a phi exactly if it is empty and the phi is that of the conditional it is a branch of.
This holds of every module that can be lowered, however its blocks end, so it is proved of the
parts of its code between two labels and not of its basic blocks.
-/
namespace Shader.Binary.Instruction

/-- The values and labels that operands pair. -/
def pairedOperands : List Operand → List (Word × Word)
  | .id value :: .id label :: rest => (value, label) :: pairedOperands rest
  | _ => []

/-- The sources of a phi: each value with the label of the block it comes from. -/
def sources (phi : Instruction) : List (Word × Word) := pairedOperands phi.operands

theorem sources_joining (ty id : Word) (pairs : List (Word × Word)) : (joining ty id pairs).sources = pairs := by
  unfold sources joining
  induction pairs with
  | nil => rfl
  | cons pair rest ih => simpa [pairedOperands] using ih

end Shader.Binary.Instruction

namespace Shader.Binary

/-- The edges from a block to one with a phi that does not count them. -/
def FunctionCode.unmatched (code : FunctionCode) : List (Word × Word) := do
  let block ← code.blocks
  let target ← code.blocks
  let source ← block.label.result.toList
  let label ← target.label.result.toList
  if (block.body.toList.flatMap Instruction.branches).contains label &&
      target.body.toList.any fun phi => decide (phi.op = .phi) && !(phi.sources.map Prod.snd).contains source then
    [(source, label)]
  else []

end Shader.Binary

namespace Shader.Lower

open Binary Instruction List FunctionCode

variable {m : Module} {L : Ledger}
variable {block : BlockId} {code : List Instruction} {label : Word} {scopes : Scopes} {branch : InstId}
variable {first second : List Instruction} {key : Key}

/-- The phis that may follow a label. -/
inductive Meets (m : Module) (L : Ledger) (label : Word) : List Instruction → Prop where
  | start {block : BlockId} (bound : (Key.label block, label) ∈ L.state.bindings) : Meets m L label []
  | params {block : BlockId} {phis : List Instruction} (bound : (Key.label block, label) ∈ L.state.bindings)
      (joins : IncomingPhis m L.state block phis) : Meets m L label phis
  | results {construct : InstId} {inst : Inst} {phis : List Instruction}
      (bound : (Key.merge construct, label) ∈ L.state.bindings) (held : m.inst construct = .ok inst)
      (joins : ExitPhis m L.state inst inst.kind.exits (implicitExits inst.kind) phis) : Meets m L label phis
  | header {block : BlockId} {phis : List Instruction} (fresh : label ∈ L.loose)
      (joins : IncomingPhis m L.state block phis) : Meets m L label phis

theorem Meets.phis {phis : List Instruction} (meets : Meets m L label phis) :
    ∀ inst ∈ phis, inst.op = .phi := by
  cases meets with
  | start => simp
  | @params block _ _ joins | @header block _ _ joins =>
    have joined : JoinCode m L (.params block) phis := joins
    exact joined.phis
  | @results construct inst _ _ held joins =>
    have joined : JoinCode m L (.results construct) phis := ⟨inst, held, joins⟩
    exact joined.phis

/-- Neither a label nor a phi. -/
def Inner (code : List Instruction) : Prop := ∀ inst ∈ code, inst.op ≠ .label ∧ inst.op ≠ .phi

/-- A label, the phis that may follow it, and then neither. -/
def Stretch (m : Module) (L : Ledger) (block : BasicBlock) : Prop :=
  ∃ label phis rest, block.label = labelled label ∧ Meets m L label phis ∧ Inner rest ∧ block.body.toList = phis ++ rest

/-- The code is the rest of a part and then whole parts. -/
def Stretches (m : Module) (L : Ledger) (code : List Instruction) : Prop :=
  ∃ (first : List Instruction) (parts : List BasicBlock), code = first ++ parts.flatMap BasicBlock.instructions ∧
    Inner first ∧ ∀ block ∈ parts, Stretch m L block

theorem Inner.append (one : Inner first) (two : Inner second) : Inner (first ++ second) :=
  fun inst member => (mem_append.mp member).elim (one inst) (two inst)

theorem Stretch.extend {block : BasicBlock} (part : Stretch m L block) {rest : List Instruction} (inner : Inner rest) :
    Stretch m L { block with body := block.body ++ rest.toArray } := by
  obtain ⟨label, phis, rest', opens, meets, inner', body⟩ := part
  exact ⟨label, phis, rest' ++ rest, opens, meets, inner'.append inner, by simp [body]⟩

theorem Stretch.whole {block : BasicBlock} (part : Stretch m L block) : block.Whole := by
  obtain ⟨label, phis, rest, opens, meets, inner, body⟩ := part
  refine ⟨by rw [opens]; rfl, fun inst member isLabel => ?_⟩
  rw [body, mem_append] at member
  rcases member with phi | other
  · cases (meets.phis inst phi).symm.trans isLabel
  · exact (inner inst other).1 isLabel

theorem Stretches.inner (inner : Inner code) : Stretches m L code :=
  ⟨code, [], by simp, inner, by simp⟩

theorem Stretches.append (one : Stretches m L first) (two : Stretches m L second) :
    Stretches m L (first ++ second) := by
  obtain ⟨start, parts, rfl, inner, each⟩ := one
  obtain ⟨start', parts', rfl, inner', each'⟩ := two
  rcases eq_nil_or_concat parts with rfl | ⟨before, last, rfl⟩
  · exact ⟨start ++ start', parts', by simp, inner.append inner', each'⟩
  · -- What the second code starts with belongs to the last part of the first.
    refine ⟨start, before ++ { last with body := last.body ++ start'.toArray } :: parts', ?_, inner, ?_⟩
    · simp [BasicBlock.instructions]
    · intro block member
      rcases mem_append.mp member with early | late
      · exact each block (by simp [early])
      · rcases mem_cons.mp late with rfl | late
        · exact (each last (by simp)).extend inner'
        · exact each' block late

theorem Stretches.cons {inst : Instruction} (op : inst.op ≠ .label ∧ inst.op ≠ .phi) (parts : Stretches m L code) :
    Stretches m L (inst :: code) := by
  have one : Stretches m L [inst] := .inner (by simpa [Inner] using op)
  exact one.append parts

theorem Stretches.flatten {codes : List (List Instruction)} (each : ∀ code ∈ codes, Stretches m L code) :
    Stretches m L codes.flatten := by
  induction codes with
  | nil => exact .inner (by simp [Inner])
  | cons code rest ih =>
    exact (each code (by simp)).append (ih fun other member => each other (by simp [member]))

theorem Stretches.labelled {phis : List Instruction} (meets : Meets m L label phis) (parts : Stretches m L code) :
    Stretches m L (Instruction.labelled label :: (phis ++ code)) := by
  have start : Stretches m L (Instruction.labelled label :: phis) := by
    refine ⟨[], [⟨Instruction.labelled label, phis.toArray⟩], by simp [BasicBlock.instructions], by simp [Inner], ?_⟩
    intro block member
    rw [mem_singleton.mp member]
    exact ⟨label, phis, [], rfl, meets, by simp [Inner], by simp⟩
  exact start.append parts

theorem Stretches.start (bound : (Key.label block, label) ∈ L.state.bindings) (parts : Stretches m L code) :
    Stretches m L (Instruction.labelled label :: code) :=
  parts.labelled (.start bound)

theorem TerminatorCode.isTerminator {s : LowerState} {kind : Kind} {code : Instruction}
    (laid : TerminatorCode m s scopes kind code) : code.op.isTerminator = true := by
  cases kind with
  | ret value =>
    cases value with
    | none => cases laid; rfl
    | some value => obtain ⟨_, _, rfl⟩ := laid; rfl
  | breakIf => obtain ⟨_, _, _, _, _, _, rfl⟩ := laid; rfl
  | continueTo => obtain ⟨_, _, _, _, _, _, rfl⟩ := laid; rfl
  | exitIf | exitLoop | exitSwitch | nextIteration => obtain ⟨_, _, rfl⟩ := laid; rfl
  | _ => cases laid; rfl

section
variable {described : Scopes → BlockId → List Instruction → Prop}
  (inside : ∀ {scopes block code}, described scopes block code → Stretches m L code)

include inside

theorem BlockCode.stretches (laid : BlockCode m L described scopes block code) : Stretches m L code := by
  cases laid with
  | full found inhabited bound joins laid => exact (inside laid).labelled (.params bound joins)
  | onward found empty owned held results bound merges =>
    exact Stretches.start bound (.inner (by simp [Inner, branchTo]))
  | stuck found empty silent bound =>
    exact Stretches.start bound (.inner (by simp [Inner, deadEnd]))

theorem BranchCode.stretches {merge : Word} {needs : Bool}
    (laid : BranchCode m L described scopes merge block needs label code) : Stretches m L code := by
  cases laid with
  | elided => exact .inner (by simp [Inner])
  | laid bound laid => exact laid.stretches inside

theorem InstCode.stretches {id : InstId} {inst : Inst} (held : m.inst id = .ok inst)
    (laid : InstCode m L described scopes id inst code) : Stretches m L code := by
  have after : ∀ {merge : Word} {phis : List Instruction}, (Key.merge id, merge) ∈ L.state.bindings →
      ExitPhis m L.state inst inst.kind.exits (implicitExits inst.kind) phis →
      Stretches m L (labelled merge :: phis) := by
    intro merge phis merges joins
    have nothing : Stretches m L [] := .inner (by simp [Inner])
    simpa using nothing.labelled (.results merges held joins)
  cases laid with
  | plain open_ whole ordinary realised =>
    refine .inner fun only member => ?_
    have op := ordinary only member
    constructor <;> intro same <;> rw [same] at op <;> cases op
  | terminator ends laid =>
    refine .inner fun only member => ?_
    rw [mem_singleton.mp member]
    have op := laid.isTerminator
    constructor <;> intro same <;> rw [same] at op <;> cases op
  | conditional kind merges decides trueNeeds falseNeeds trueLaid falseLaid joins =>
    refine .cons (by simp [mergeAt]) (.cons (by simp [branchOn]) ?_)
    refine (trueLaid.stretches inside).append ((falseLaid.stretches inside).append (after merges ?_))
    rwa [kind]
  | @loop l merge header bodyLabel continuing entry headPhis bodyCode back phis kind merges fresh bodyBound
      continuingBound enters headJoins bodyLaid returns joins =>
    have entering : Stretches m L entry := by
      generalize l.initializer = initializer at enters
      cases enters with
      | direct => exact .inner (by simp [Inner, branchTo])
      | through bound laid => exact .cons (by simp [branchTo]) (laid.stretches inside)
    have returning : Stretches m L back := by
      cases returns with
      | finished ends laid => exact laid.stretches inside
      | unfinished open_ =>
        exact Stretches.start continuingBound (.inner (by simp [Inner, branchTo]))
    have rest := returning.append (after merges (by rwa [kind]))
    have body := Stretches.start bodyBound ((inside bodyLaid).append rest)
    exact entering.append (Stretches.labelled (.header fresh headJoins)
      (.cons (by simp [loopAt]) (.cons (by simp [branchTo]) body)))
  | @switch s merge selector otherwise default targets blocks phis kind merges selects defaults defaultBound cases
      laid joins =>
    refine .cons (by simp [mergeAt]) (.cons (by simp [selectOn]) (.append (.flatten ?_) (after merges (by rwa [kind]))))
    intro code member
    obtain ⟨case, -, laid⟩ := forall₂_mem_right laid member
    exact laid.stretches inside

end

theorem bodyCode_stretches (depth : Nat) (laid : BodyCode m L depth scopes block code) : Stretches m L code := by
  induction depth generalizing scopes block code with
  | zero => exact laid.elim
  | succ depth ih =>
    obtain ⟨b, found, ⟨empty, rfl⟩ | ⟨inhabited, codes, rfl, each⟩⟩ := laid
    · exact .inner (by simp [Inner, deadEnd])
    · refine .flatten fun code member => ?_
      obtain ⟨id, -, inst, held, laid⟩ := forall₂_mem_right each member
      exact laid.stretches ih held

/-- Every block of a function starts with a label and the phis that may follow it. -/
theorem FunctionLaid.stretches {ref : FuncId} {code : FunctionCode} (laid : FunctionLaid m L ref code) :
    ∀ block ∈ code.blocks, Stretch m L block := by
  obtain ⟨function, start, locals, body, opens, -, laid, rfl⟩ := laid
  obtain ⟨label, bound, shape⟩ := opens.blocks
  obtain ⟨first, parts, rfl, inner, each⟩ := bodyCode_stretches _ laid
  have blocks : ((start.addLocals locals).extend (first ++ parts.flatMap BasicBlock.instructions)).blocks =
      ⟨labelled label, first.toArray⟩ :: parts := by
    rw [← extend_extend, blocks_extend _ fun block member => (each block member).whole,
      extend_unlabelled _ fun inst member => (inner inst member).1, shape]
    simp [blocks, addLocals]
  rw [blocks]
  intro block member
  rcases mem_cons.mp member with rfl | member
  · exact ⟨label, [], first, rfl, .start bound, inner, rfl⟩
  · exact each block member

/-- Control leaves from a place, and if that is the start of a block then the branch is in the block. -/
theorem leavingKey_place (leaves : leavingKey m branch = .ok key) :
    key.isPlace = true ∧ ∀ block, key = .label block → branch ∈ m.instsOf block := by
  obtain ⟨inst, b, earlier, last, -, found, before, -, rfl⟩ := leavingKey_eq_ok leaves
  cases last with
  | some construct => exact ⟨rfl, by rintro _ ⟨⟩⟩
  | none =>
    refine ⟨rfl, ?_⟩
    rintro _ ⟨⟩
    rw [Module.instsOf_eq found]
    unfold before? at before
    split at before
    · rename_i member
      simpa using member
    · cases before

/-- No instruction of the block ends it. -/
def Unended (m : Module) (block : BlockId) : Prop :=
  ∀ id ∈ m.instsOf block, ∀ inst, m.inst id = .ok inst → inst.kind.isTerminator = false

theorem isTerminator_of_args {kind : Kind} {arg : Value} (passes : arg ∈ kind.branchArgs ∨ arg ∈ kind.exitArgs) :
    kind.isTerminator = true := by
  cases kind <;> first | rfl | simp [Kind.branchArgs, Kind.exitArgs] at passes

section
variable {state : LowerState} {e : Effect} (lowering : Lowering m state e)

include lowering

/-- A branch does not leave from a block that nothing ends. -/
theorem Lowering.leaves_ended {args : Kind → List Value} {index : Nat} {pair : Word × Word}
    (passing : ∀ {kind : Kind} {arg : Value}, arg ∈ args kind → arg ∈ kind.branchArgs ∨ arg ∈ kind.exitArgs)
    (brings : Brings m state args index branch pair) (unended : Unended m block) :
    (Key.label block, pair.2) ∉ state.bindings := by
  intro bound
  obtain ⟨inst, arg, held, passed, -, key, leaves, leaving⟩ := brings
  obtain ⟨place, within⟩ := leavingKey_place leaves
  have inside := within block (lowering.key_unique leaving bound place rfl)
  exact Bool.noConfusion ((unended branch inside inst held).symm.trans
    (isTerminator_of_args (passing (mem_of_getElem? passed))))

/-- The phi is one of a conditional, and the block is one of its branches. -/
def CountsBranch (m : Module) (state : LowerState) (label : Word) (block : BlockId) : Prop :=
  ∃ construct inst c, (Key.merge construct, label) ∈ state.bindings ∧ m.inst construct = .ok inst ∧
    inst.kind = .conditional c ∧ block ∈ [c.whenTrue, c.whenFalse]

omit lowering in
theorem CountsBranch.implicit {construct : InstId} {inst : Inst}
    (bound : (Key.merge construct, label) ∈ state.bindings) (held : m.inst construct = .ok inst)
    (implicit : block ∈ implicitExits inst.kind) : CountsBranch m state label block := by
  cases kind : inst.kind with
  | conditional c => exact ⟨construct, inst, c, bound, held, kind, by simpa [kind, implicitExits] using implicit⟩
  | _ => simp [kind, implicitExits] at implicit

/-- Where labels meet, a block that nothing ends counts exactly for the conditional it is an empty branch of. -/
theorem Meets.source_iff {source : Word} {phis : List Instruction} (meets : Meets m ⟨state, e.loose⟩ label phis)
    (unended : Unended m block) (bound : (Key.label block, source) ∈ state.bindings) {phi : Instruction}
    (member : phi ∈ phis) :
    source ∈ phi.sources.map Prod.snd ↔ isEmptyBlock m block = true ∧ CountsBranch m state label block := by
  have incoming : ∀ {body : BlockId}, IncomingPhis m state body phis → source ∉ phi.sources.map Prod.snd := by
    rintro body ⟨b, -, each⟩ listed
    obtain ⟨_, -, ty, id, pairs, -, brings, rfl⟩ := forall₂_mem_right each member
    rw [sources_joining] at listed
    obtain ⟨pair, isPair, rfl⟩ := mem_map.mp listed
    obtain ⟨branch, -, brings⟩ := forall₂_mem_right brings isPair
    exact lowering.leaves_ended .inl brings unended bound
  cases meets with
  | start => cases member
  | params isLabel joins =>
    refine iff_of_false (incoming joins) ?_
    rintro ⟨-, construct, inst, c, isMerge, -⟩
    cases lowering.key_unique isLabel isMerge rfl rfl
  | header fresh joins =>
    refine iff_of_false (incoming joins) ?_
    rintro ⟨-, construct, inst, c, isMerge, -⟩
    exact lowering.loose_apart isMerge rfl fresh
  | @results construct inst _ isMerge held joins =>
    obtain ⟨_, -, ty, id, pairs, listed, undefined, -, brings, perm, implicit, rfl⟩ := forall₂_mem_right joins member
    rw [sources_joining, map_append, mem_append]
    constructor
    · rintro (explicit | counted)
      · obtain ⟨pair, isPair, rfl⟩ := mem_map.mp explicit
        obtain ⟨branch, -, brings⟩ := forall₂_mem_right brings (perm.subset isPair)
        exact absurd bound (lowering.leaves_ended .inr brings unended)
      · obtain ⟨pair, isPair, rfl⟩ := mem_map.mp counted
        obtain ⟨other, isOther, otherBound⟩ := forall₂_mem_right implicit isPair
        cases lowering.key_unique bound otherBound rfl rfl
        obtain ⟨branch, empty⟩ := mem_filter.mp isOther
        exact ⟨empty, .implicit isMerge held branch⟩
    · rintro ⟨empty, construct', inst', c, isMerge', held', kind, branch⟩
      cases lowering.key_unique isMerge isMerge' rfl rfl
      cases held.symm.trans held'
      have counted : block ∈ (implicitExits inst.kind).filter (isEmptyBlock m) := by
        rw [kind]
        exact mem_filter.mpr ⟨branch, empty⟩
      obtain ⟨pair, isPair, bound'⟩ := forall₂_mem_right implicit.flip counted
      refine .inr (mem_map.mpr ⟨pair, isPair, ?_⟩)
      exact eq_of_mem_bindings lowering.sound bound' bound

end

/-- In the phis of a lowered module the label of a block that nothing ends is a source exactly where the block is
empty and a branch of the conditional that the phi is of. So it never is if the block is the case of a switch or a
block of a loop, with instructions or without. -/
theorem empty_block_source_iff {options : Options} {assembly : Assembly} (lowers : m.lower options = .ok assembly) :
    ∃ state, (emitModule m options).run { pool := m.constants } = .ok ((), state) ∧ assembly = state.out ∧
      ∀ code ∈ assembly.functions.toList, ∀ basic ∈ code.blocks, ∀ label, basic.label.result = some label →
        ∀ phi ∈ basic.body.toList, phi.op = .phi → ∀ block source, Unended m block →
          (Key.label block, source) ∈ state.bindings →
          (source ∈ phi.sources.map Prod.snd ↔ isEmptyBlock m block = true ∧ CountsBranch m state label block) := by
  obtain ⟨⟨⟨⟩, state⟩, ran, same⟩ := bind_eq_ok.mp lowers
  cases same
  obtain ⟨e, lowering⟩ := lowering_of_run ran
  refine ⟨state, ran, rfl, fun code isCode basic isBlock label named phi isInst isPhi block source unended bound => ?_⟩
  rw [lowering.functions] at isCode
  obtain ⟨index, -, laid⟩ := forall₂_mem_right lowering.builds.functions isCode
  obtain ⟨label', phis, rest, opens, meets, inner, body⟩ := laid.stretches basic isBlock
  rw [opens] at named
  cases named
  rw [body, mem_append] at isInst
  refine meets.source_iff lowering unended bound (isInst.resolve_right fun other => ?_)
  exact (inner phi other).2 isPhi

/-- A conditional, a switch and two loops. A branch of the conditional, a case of the switch, the initializer of
one loop and the continuing block of the other are empty. -/
def unfinished : Module where
  constants := ⟨#[.scalar (.u32 1), .scalar (.bool true)]⟩
  values := #[⟨.u32, none, .result ⟨0⟩⟩, ⟨.u32, none, .result ⟨1⟩⟩, ⟨.u32, none, .result ⟨2⟩⟩,
    ⟨.u32, none, .blockParam ⟨10⟩⟩]
  insts := #[ ⟨.conditional ⟨.constant ⟨1⟩, ⟨2⟩, ⟨3⟩, [⟨5⟩]⟩, [⟨0⟩], ⟨1⟩⟩,
    ⟨.switch ⟨.constant ⟨0⟩, [⟨[.value ⟨0⟩], ⟨4⟩⟩, ⟨[.otherwise], ⟨5⟩⟩], [⟨6⟩]⟩, [⟨1⟩], ⟨1⟩⟩,
    ⟨.loop ⟨some ⟨6⟩, ⟨7⟩, ⟨8⟩, [⟨7⟩]⟩, [⟨2⟩], ⟨1⟩⟩,
    ⟨.loop ⟨some ⟨9⟩, ⟨10⟩, ⟨11⟩, []⟩, [], ⟨1⟩⟩,
    ⟨.ret none, [], ⟨1⟩⟩,
    ⟨.exitIf ⟨0⟩ [.constant ⟨0⟩], [], ⟨3⟩⟩,
    ⟨.exitSwitch ⟨1⟩ [.constant ⟨0⟩], [], ⟨5⟩⟩,
    ⟨.exitLoop ⟨2⟩ [.constant ⟨0⟩], [], ⟨7⟩⟩,
    ⟨.nextIteration ⟨2⟩ [], [], ⟨8⟩⟩,
    ⟨.nextIteration ⟨3⟩ [.constant ⟨0⟩], [], ⟨9⟩⟩,
    ⟨.continueTo ⟨3⟩ [], [], ⟨10⟩⟩]
  blocks := #[ {}, { insts := [⟨0⟩, ⟨1⟩, ⟨2⟩, ⟨3⟩, ⟨4⟩] }, { parent := some ⟨0⟩ },
    { insts := [⟨5⟩], parent := some ⟨0⟩ },
    { parent := some ⟨1⟩ },
    { insts := [⟨6⟩], parent := some ⟨1⟩ },
    { parent := some ⟨2⟩ },
    { insts := [⟨7⟩], parent := some ⟨2⟩ },
    { insts := [⟨8⟩], parent := some ⟨2⟩ },
    { insts := [⟨9⟩], parent := some ⟨3⟩ },
    { insts := [⟨10⟩], params := [⟨3⟩], parent := some ⟨3⟩, inbound := [⟨9⟩] },
    { parent := some ⟨3⟩ }]
  functions := #[⟨"f", [], .void, .none, none, ⟨1⟩⟩]

theorem unfinished_source_iff : ∃ assembly, unfinished.lower {} = .ok assembly ∧
    ∃ state, (emitModule unfinished {}).run { pool := unfinished.constants } = .ok ((), state) ∧ assembly = state.out ∧
      ∀ code ∈ assembly.functions.toList, ∀ basic ∈ code.blocks, ∀ label, basic.label.result = some label →
        ∀ phi ∈ basic.body.toList, phi.op = .phi → ∀ block source, Unended unfinished block →
          (Key.label block, source) ∈ state.bindings → (source ∈ phi.sources.map Prod.snd ↔
            isEmptyBlock unfinished block = true ∧ CountsBranch unfinished state label block) := by
  obtain ⟨assembly, lowered⟩ : ∃ assembly, unfinished.lower {} = .ok assembly := by decide +kernel
  exact ⟨assembly, lowered, empty_block_source_iff lowered⟩

/-- The empty case, the empty initializer and the empty continuing block each have an edge that no phi of its
target counts; the empty branch of the conditional has none. -/
theorem unfinished_edges_unmatched : ∃ assembly, unfinished.lower {} = .ok assembly ∧
    assembly.functions.toList.flatMap unmatched = [(15, 16), (18, 22), (26, 27)] := by
  decide +kernel

end Shader.Lower
