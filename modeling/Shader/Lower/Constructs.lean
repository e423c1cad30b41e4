import Shader.Lower.Calls
import Shader.Lower.Variables

/-!
Control flow.

A construct becomes a merge declaration, a branch into its blocks and a merge block after them. A value
that flows into a merge block or into a loop's header or continuing block along several branches is
joined by a phi, which pairs each value with the label of the block the branch leaves from.
-/
namespace Shader.Lower

open Binary

/-- The labels of the nearest enclosing constructs. -/
structure Scopes where
  ifMerge : Option Word := none
  switchMerge : Option Word := none
  loopHeader : Option Word := none
  loopMerge : Option Word := none
  deriving DecidableEq

/-- The label a branch goes to, which an enclosing construct must have set. -/
def targetLabel (label : Option Word) (kind : Kind) (id : InstId) : Lower Word :=
  match label with
  | some label => return label
  | none => fail (.outsideConstruct kind.name id)

/-- The instructions of a list before the first occurrence of one of them. -/
def before? (insts : List InstId) (id : InstId) : Option (List InstId) :=
  if insts.contains id then some (insts.takeWhile (· ≠ id)) else none

/-- The last control instruction of a list. -/
def lastControl? (m : Module) : List InstId → Except Fault (Option InstId)
  | [] => return none
  | id :: rest => do
    match ← lastControl? m rest with
    | some found => return some found
    | none => return if (← m.inst id).kind.isControl then some id else none

/-- The label of the block that control leaves from at a branch: the merge block of the last construct
before the branch in its block, or else the block itself. -/
def leavingLabel (m : Module) (branch : InstId) : Lower Word := do
  let block := (← check (m.inst branch)).block
  let insts := (← check (m.block block)).insts
  match before? insts branch with
  | none => fail (.notInBlock branch block)
  | some earlier =>
    match ← check (lastControl? m earlier) with
    | some construct => mergeId construct
    | none => labelId block

/-- The value and the label a branch contributes to the phi of a block parameter. -/
def incoming (m : Module) (block : BlockId) (index : Nat) (branch : InstId) : Lower (List Operand) := do
  match (← check (m.inst branch)).kind.branchArgs[index]? with
  | none => fail (.noBranchArgument branch index block)
  | some arg => do
    let value ← valueId m arg
    let label ← leavingLabel m branch
    return [.id value, .id label]

/-- A phi for each parameter of a block. -/
def emitIncomingPhis (m : Module) (block : BlockId) : Lower Unit := do
  let b ← check (m.block block)
  b.params.zipIdx.forM fun (param, index) => do
    let typeWord ← typeId m (← check (m.value param)).ty
    let id ← valueId m (.ssa param)
    let branches ← b.inbound.mapM (incoming m block index)
    emit .phi (.id typeWord :: .id id :: branches.flatten)

/-- The label a branch out of a construct leaves from, and the value it carries for a result. -/
def outgoing (m : Module) (construct : InstId) (index : Nat) (exit : InstId) : Lower (Word × Value) := do
  match (← check (m.inst exit)).kind.exitArgs[index]? with
  | none => fail (.noExitValue exit index construct)
  | some arg => return (← leavingLabel m exit, arg)

/-- The labels of the blocks of a construct that are empty, and so reach its merge block without a
branch. -/
def emptyLabels (m : Module) (blocks : List BlockId) : Lower (List Word) := do
  let labels ← blocks.mapM fun block => do
    if (← check (m.block block)).insts.isEmpty then return [← labelId block] else return []
  return labels.flatten

/-- Put a branch before the first one whose label is not smaller. -/
def insertByLabel (branch : Word × Value) : List (Word × Value) → List (Word × Value)
  | [] => [branch]
  | first :: rest =>
    if branch.1 ≤ first.1 then branch :: first :: rest else first :: insertByLabel branch rest

/-- Branches by increasing label; branches with one label keep their order. -/
def sortByLabel (branches : List (Word × Value)) : List (Word × Value) :=
  branches.foldr insertByLabel []

/-- A phi for each result of a construct. Branches are listed by increasing label, then the blocks in
`implicit` that are empty, with an undefined value. -/
def emitExitPhis (m : Module) (construct : InstId) (inst : Inst) (exits : List InstId)
    (implicit : List BlockId) : Lower Unit :=
  inst.results.zipIdx.forM fun (result, index) => do
    let ty := (← check (m.value result)).ty
    let branches ← exits.mapM (outgoing m construct index)
    let ordered := sortByLabel branches
    let empty ← emptyLabels m implicit
    let typeWord ← typeId m ty
    let id ← valueId m (.ssa result)
    let explicit ← ordered.mapM fun (label, value) => return [.id (← valueId m value), .id label]
    let undefined ← empty.mapM fun label => return [.id (← undefId m ty), .id label]
    emit .phi (.id typeWord :: .id id :: (explicit ++ undefined).flatten)

/-- Lower an instruction that ends a block. -/
def emitTerminator (m : Module) (scopes : Scopes) (id : InstId) (kind : Kind) : Lower Unit :=
  match kind with
  | .ret (some value) => do
    let value ← valueId m value
    emit .returnValue [.id value]
  | .ret none => emit .returnVoid []
  | .breakIf condition _ _ _ => do
    let condition ← valueId m condition
    let merge ← targetLabel scopes.loopMerge kind id
    let header ← targetLabel scopes.loopHeader kind id
    emit .branchConditional [.id condition, .id merge, .id header]
  | .continueTo target _ => do
    match (← check (m.inst target)).kind with
    | .loop l => do
      let continuing ← labelId l.continuing
      emit .branch [.id continuing]
    | _ => fail (.continueTarget id)
  | .exitIf _ _ => do
    let merge ← targetLabel scopes.ifMerge kind id
    emit .branch [.id merge]
  | .exitLoop _ _ => do
    let merge ← targetLabel scopes.loopMerge kind id
    emit .branch [.id merge]
  | .exitSwitch _ _ => do
    let merge ← targetLabel scopes.switchMerge kind id
    emit .branch [.id merge]
  | .nextIteration _ _ => do
    let header ← targetLabel scopes.loopHeader kind id
    emit .branch [.id header]
  | .terminate => emit .kill []
  | _ => emit .unreachable []

/-- Lower a block that is not the first of its function; `body` lowers the instructions of a block. An
empty block is a dead end, unless its construct has results: then it goes on to the merge block. -/
def emitBlock (m : Module) (body : Scopes → BlockId → Lower Unit) (scopes : Scopes) (block : BlockId) :
    Lower Unit := do
  let label ← labelId block
  emit .label [.id label]
  let b ← check (m.block block)
  if b.insts.isEmpty then
    match b.parent with
    | some parent => do
      if (← check (m.inst parent)).results.isEmpty then
        emit .unreachable []
      else
        let merge ← mergeId parent
        emit .branch [.id merge]
    | none => emit .unreachable []
  else
    if !b.params.isEmpty then
      emitIncomingPhis m block
    body scopes block

/-- Whether a branch of a conditional needs a block of its own: it does some work, it leaves the
conditional for somewhere else, or the conditional has results. -/
def needsBlock (m : Module) (hasResults : Bool) (block : BlockId) : Except Fault Bool := do
  let b ← m.block block
  let escapes ← match ← m.terminator? block with
    | none => pure false
    | some terminator => do
      match (← m.inst terminator).kind with
      | .exitIf _ _ => pure false
      | _ => pure true
  return decide (b.insts.length > 1) || hasResults || escapes

/-- Lower a conditional. A branch that needs no block goes straight to the merge block. -/
def emitConditional (m : Module) (body : Scopes → BlockId → Lower Unit) (scopes : Scopes) (id : InstId)
    (inst : Inst) (c : Conditional) : Lower Unit := do
  let hasResults := !inst.results.isEmpty
  let merge ← mergeId id
  let inner := { scopes with ifMerge := some merge }
  let emitTrue ← check (needsBlock m hasResults c.whenTrue)
  let emitFalse ← check (needsBlock m hasResults c.whenFalse)
  let trueLabel ← if emitTrue then labelId c.whenTrue else pure merge
  let falseLabel ← if emitFalse then labelId c.whenFalse else pure merge
  emit .selectionMerge [.id merge, .literal noControl]
  let condition ← valueId m c.condition
  emit .branchConditional [.id condition, .id trueLabel, .id falseLabel]
  if emitTrue then
    emitBlock m body inner c.whenTrue
  if emitFalse then
    emitBlock m body inner c.whenFalse
  emit .label [.id merge]
  emitExitPhis m id inst c.exits [c.whenTrue, c.whenFalse]

/-- Lower a loop. Its header holds the phis of the body's parameters. A continuing block that does not end
in a branch becomes a branch back to the header. -/
def emitLoop (m : Module) (body : Scopes → BlockId → Lower Unit) (scopes : Scopes) (id : InstId)
    (inst : Inst) (l : Loop) : Lower Unit := do
  let initializerLabel ← l.initializer.mapM labelId
  let bodyLabel ← labelId l.body
  let continuingLabel ← labelId l.continuing
  let header ← fresh
  let merge ← mergeId id
  let inner := { scopes with loopHeader := some header, loopMerge := some merge }
  match l.initializer, initializerLabel with
  | some initializer, some label => do
    emit .branch [.id label]
    emitBlock m body inner initializer
  | _, _ => emit .branch [.id header]
  emit .label [.id header]
  emitIncomingPhis m l.body
  emit .loopMerge [.id merge, .id continuingLabel, .literal noControl]
  emit .branch [.id bodyLabel]
  emit .label [.id bodyLabel]
  body inner l.body
  if (← check (m.terminator? l.continuing)).isSome then
    emitBlock m body inner l.continuing
  else
    emit .label [.id continuingLabel]
    emit .branch [.id header]
  emit .label [.id merge]
  emitExitPhis m id inst l.exits []

/-- The block that runs when no case is selected. -/
def defaultBlock (id : InstId) (s : Switch) : Except Fault BlockId :=
  match s.cases.filter Case.isDefault with
  | [case] => .ok case.block
  | [] => .error (.noDefaultCase id)
  | cases => .error (.severalDefaultCases id cases.length)

/-- The number that selects a case, and the case's label. -/
def selectorOperands (id : InstId) (label : Word) : Selector → Lower (List Operand)
  | .otherwise => return []
  | .value constant => do
    match ← askPool (·.word? constant) with
    | some word => return [.literal word, .id label]
    | none => fail (.caseSelector id constant)

/-- The numbers that select a case, each with the case's label. -/
def caseOperands (id : InstId) (case : Case) : Lower (List Operand) := do
  let label ← labelId case.block
  return (← case.selectors.mapM (selectorOperands id label)).flatten

/-- Lower a switch. -/
def emitSwitch (m : Module) (body : Scopes → BlockId → Lower Unit) (scopes : Scopes) (id : InstId)
    (inst : Inst) (s : Switch) : Lower Unit := do
  let defaultLabel ← labelId (← check (defaultBlock id s))
  let condition ← valueId m s.condition
  let cases ← s.cases.mapM (caseOperands id)
  let merge ← mergeId id
  let inner := { scopes with switchMerge := some merge }
  emit .selectionMerge [.id merge, .literal noControl]
  emit .switch (.id condition :: .id defaultLabel :: cases.flatten)
  s.cases.forM fun case => emitBlock m body inner case.block
  emit .label [.id merge]
  emitExitPhis m id inst s.exits []

/-- Lower what an instruction does; `body` lowers the instructions of the blocks it owns. -/
def emitKind (m : Module) (options : Options) (body : Scopes → BlockId → Lower Unit) (scopes : Scopes)
    (id : InstId) (inst : Inst) : Lower Unit :=
  match inst.kind with
  | .access object indices => emitAccess m inst object indices
  | .binary op lhs rhs => emitBinary m inst op lhs rhs
  | .unary op value => emitUnary m inst op value
  | .bitcast value => emitBitcast m inst value
  | .convert value => emitConvert m inst value
  | .construct args => emitConstruct m inst args
  | .swizzle object indices => emitSwizzle m inst object indices
  | .load source => emitLoad m inst source
  | .store target value => emitStore m target value
  | .loadElement source index => emitLoadElement m inst source index
  | .storeElement target index value => emitStoreElement m target index value
  | .var declaration => declareVariable m options id inst declaration
  | .bind value => passThrough m inst value
  | .builtin fn args => emitBuiltin m inst fn args
  | .targetCall fn args => emitTargetCall m inst fn args
  | .call target args => emitCall m inst target args
  | .conditional c => emitConditional m body scopes id inst c
  | .loop l => emitLoop m body scopes id inst l
  | .switch s => emitSwitch m body scopes id inst s
  | kind => emitTerminator m scopes id kind

/-- Lower an instruction and name its results. A variable is named where it is declared. -/
def emitInst (m : Module) (options : Options) (body : Scopes → BlockId → Lower Unit) (scopes : Scopes)
    (id : InstId) : Lower Unit := do
  let inst ← check (m.inst id)
  emitKind m options body scopes id inst
  match inst.kind with
  | .var _ => pure ()
  | _ => nameResults m inst

/-- Lower the instructions of a block whose constructs nest at most `depth` deep. -/
def emitBodyWithin (m : Module) (options : Options) : (depth : Nat) → Scopes → BlockId → Lower Unit
  | 0, _, _ => fail .circular
  | depth + 1, scopes, block => do
    let b ← check (m.block block)
    b.insts.forM (emitInst m options (emitBodyWithin m options depth) scopes)
    if b.insts.isEmpty then
      emit .unreachable []

/-- Lower the instructions of the first block of a function. Blocks that do not contain themselves nest
at most as deep as there are blocks. -/
def emitBody (m : Module) (options : Options) (block : BlockId) : Lower Unit :=
  emitBodyWithin m options (m.blocks.size + 1) {} block

end Shader.Lower
