import Shader.Proofs.Lowering.Storage

/-!
How the code of a block is laid out.

A construct becomes the code of its blocks, one after the other, between the branches into them and the
label where they meet again. The layout says nothing about the order in which ids were taken: every id
is the one that the finished lowering has for what it stands for.
-/
namespace Shader.Binary.Instruction

def labelled (id : Word) : Instruction := ⟨.label, none, some id, []⟩

def branchTo (target : Word) : Instruction := ⟨.branch, none, none, [.id target]⟩

def branchOn (condition whenTrue whenFalse : Word) : Instruction :=
  ⟨.branchConditional, none, none, [.id condition, .id whenTrue, .id whenFalse]⟩

/-- Branch to the label paired with the first number that is selected. -/
def selectOn (selector otherwise : Word) (cases : List (Word × Word)) : Instruction :=
  ⟨.switch, none, none, .id selector :: .id otherwise :: cases.flatMap fun case => [.literal case.1, .id case.2]⟩

def mergeAt (merge : Word) : Instruction :=
  ⟨.selectionMerge, none, none, [.id merge, .literal noControl]⟩

def loopAt (merge continuing : Word) : Instruction :=
  ⟨.loopMerge, none, none, [.id merge, .id continuing, .literal noControl]⟩

/-- Join values, each paired with the label of the block it comes from. -/
def joining (ty id : Word) (pairs : List (Word × Word)) : Instruction :=
  ⟨.phi, some ty, some id, pairs.flatMap fun pair => [.id pair.1, .id pair.2]⟩

def deadEnd : Instruction := ⟨.unreachable, none, none, []⟩

end Shader.Binary.Instruction

namespace Shader.Kind

/-- The branches out of a construct that are listed in it. -/
def exits : Kind → List InstId
  | .conditional c => c.exits
  | .loop l => l.exits
  | .switch s => s.exits
  | _ => []

end Shader.Kind

namespace Shader.Lower

open Binary LowerState Instruction

/-- What has the label of the place after some instructions of a block: the last construct among them,
or else the block. -/
def standingKey (m : Module) (block : BlockId) (earlier : List InstId) : Except Fault Key := do
  match ← lastControl? m earlier with
  | some construct => return .merge construct
  | none => return .label block

/-- What has the label that control leaves from at a branch. -/
def leavingKey (m : Module) (branch : InstId) : Except Fault Key := do
  let block := (← m.inst branch).block
  match before? (← m.block block).insts branch with
  | none => throw (.notInBlock branch block)
  | some earlier => standingKey m block earlier

/-- Control leaves from the label at the branch. -/
def Leaving (m : Module) (s : LowerState) (branch : InstId) (label : Word) : Prop :=
  ∃ key, leavingKey m branch = .ok key ∧ (key, label) ∈ s.bindings

/-- The branch brings its argument at `index` to a phi: the id of the argument and the label it leaves
from. -/
def Brings (m : Module) (s : LowerState) (args : Kind → List Value) (index : Nat) (branch : InstId)
    (pair : Word × Word) : Prop :=
  ∃ inst arg, m.inst branch = .ok inst ∧ (args inst.kind)[index]? = some arg ∧ Resolves arg pair.1 s ∧
    Leaving m s branch pair.2

/-- The phi of a parameter, which has a position among the parameters. -/
def IncomingPhi (m : Module) (s : LowerState) (inbound : List InstId) (param : ValueId × Nat)
    (phi : Instruction) : Prop :=
  ∃ ty id pairs, (Key.value param.1, id) ∈ s.bindings ∧
    List.Forall₂ (Brings m s Kind.branchArgs param.2) inbound pairs ∧ phi = joining ty id pairs

/-- The phis of the parameters of a block. -/
def IncomingPhis (m : Module) (s : LowerState) (block : BlockId) (code : List Instruction) : Prop :=
  ∃ b, m.block block = .ok b ∧ List.Forall₂ (IncomingPhi m s b.inbound) b.params.zipIdx code

/-- Whether a block has no instructions. -/
def isEmptyBlock (m : Module) (block : BlockId) : Bool :=
  match m.block block with
  | .ok b => b.insts.isEmpty
  | .error _ => false

/-- The phi of a result, which has a position among the results. Branches stand in some order, then the
blocks in `implicit` that are empty. -/
def ExitPhi (m : Module) (s : LowerState) (exits : List InstId) (implicit : List BlockId)
    (result : ValueId × Nat) (phi : Instruction) : Prop :=
  ∃ ty id pairs listed undefined, (Key.value result.1, id) ∈ s.bindings ∧
    List.Forall₂ (Brings m s Kind.exitArgs result.2) exits pairs ∧ listed.Perm pairs ∧
    List.Forall₂ (fun block pair => (Key.label block, Prod.snd pair) ∈ s.bindings)
      (implicit.filter (isEmptyBlock m)) undefined ∧
    phi = joining ty id (listed ++ undefined)

/-- The phis of the results of a construct. -/
def ExitPhis (m : Module) (s : LowerState) (inst : Inst) (exits : List InstId)
    (implicit : List BlockId) (code : List Instruction) : Prop :=
  List.Forall₂ (ExitPhi m s exits implicit) inst.results.zipIdx code

/-- The end of a block. -/
def TerminatorCode (m : Module) (s : LowerState) (scopes : Scopes) : Kind → Instruction → Prop
  | .ret (some value), code => ∃ id, Resolves value id s ∧ code = ⟨.returnValue, none, none, [.id id]⟩
  | .ret none, code => code = ⟨.returnVoid, none, none, []⟩
  | .breakIf condition _ _ _, code => ∃ id merge header, Resolves condition id s ∧
      scopes.loopMerge = some merge ∧ scopes.loopHeader = some header ∧ code = branchOn id merge header
  | .continueTo target _, code => ∃ inst l label, m.inst target = .ok inst ∧ inst.kind = .loop l ∧
      (Key.label l.continuing, label) ∈ s.bindings ∧ code = branchTo label
  | .exitIf _ _, code => ∃ merge, scopes.ifMerge = some merge ∧ code = branchTo merge
  | .exitLoop _ _, code => ∃ merge, scopes.loopMerge = some merge ∧ code = branchTo merge
  | .exitSwitch _ _, code => ∃ merge, scopes.switchMerge = some merge ∧ code = branchTo merge
  | .nextIteration _ _, code => ∃ header, scopes.loopHeader = some header ∧ code = branchTo header
  | .terminate, code => code = ⟨.kill, none, none, []⟩
  | _, code => code = deadEnd

section
variable (m : Module) (L : Ledger) (body : Scopes → BlockId → List Instruction → Prop)

/-- A block that is not the first of its function. -/
inductive BlockCode (scopes : Scopes) (block : BlockId) : List Instruction → Prop where
  | full {b : Block} {label : Word} {phis code : List Instruction} (found : m.block block = .ok b)
      (inhabited : b.insts ≠ []) (bound : (Key.label block, label) ∈ L.state.bindings)
      (joins : IncomingPhis m L.state block phis) (laid : body scopes block code) :
      BlockCode scopes block (labelled label :: (phis ++ code))
  | onward {b : Block} {parent : InstId} {owner : Inst} {label merge : Word}
      (found : m.block block = .ok b) (empty : b.insts = []) (owned : b.parent = some parent)
      (owner_found : m.inst parent = .ok owner) (results : owner.results ≠ [])
      (bound : (Key.label block, label) ∈ L.state.bindings)
      (merges : (Key.merge parent, merge) ∈ L.state.bindings) :
      BlockCode scopes block [labelled label, branchTo merge]
  | stuck {b : Block} {label : Word} (found : m.block block = .ok b) (empty : b.insts = [])
      (silent : ∀ parent owner, b.parent = some parent → m.inst parent = .ok owner → owner.results = [])
      (bound : (Key.label block, label) ∈ L.state.bindings) :
      BlockCode scopes block [labelled label, deadEnd]

/-- A branch of a conditional and the label that leads to it. -/
inductive BranchCode (scopes : Scopes) (merge : Word) (block : BlockId) :
    Bool → Word → List Instruction → Prop where
  | elided : BranchCode scopes merge block false merge []
  | laid {label : Word} {code : List Instruction} (bound : (Key.label block, label) ∈ L.state.bindings)
      (laid : BlockCode m L body scopes block code) : BranchCode scopes merge block true label code

/-- The way from before a loop to its header. -/
inductive EntryCode (scopes : Scopes) (header : Word) : Option BlockId → List Instruction → Prop where
  | direct : EntryCode scopes header none [branchTo header]
  | through {initializer : BlockId} {label : Word} {code : List Instruction}
      (bound : (Key.label initializer, label) ∈ L.state.bindings)
      (laid : BlockCode m L body scopes initializer code) :
      EntryCode scopes header (some initializer) (branchTo label :: code)

/-- The way from the continuing block of a loop back to its header. -/
inductive ReturnCode (scopes : Scopes) (header continuing : Word) (block : BlockId) :
    List Instruction → Prop where
  | finished {terminator : InstId} {code : List Instruction} (ends : m.terminator? block = .ok (some terminator))
      (laid : BlockCode m L body scopes block code) : ReturnCode scopes header continuing block code
  | unfinished (open_ : m.terminator? block = .ok none) :
      ReturnCode scopes header continuing block [labelled continuing, branchTo header]

/-- The numbers that select a case. -/
def selectedBy (pool : Pool) : List Selector → Except Fault (List Word)
  | [] => .ok []
  | .otherwise :: rest => selectedBy pool rest
  | .value constant :: rest => do
    match ← pool.word? constant with
    | some word => return word :: (← selectedBy pool rest)
    | none => throw (.unknownConstant constant)

/-- What a case contributes to the branch of its switch. -/
def CaseTargets (s : LowerState) (case : Case) (pairs : List (Word × Word)) : Prop :=
  ∃ label words, (Key.label case.block, label) ∈ s.bindings ∧
    selectedBy s.pool case.selectors = .ok words ∧ pairs = words.map (·, label)

/-- The code of an instruction. -/
inductive InstCode (scopes : Scopes) (id : InstId) (inst : Inst) : List Instruction → Prop where
  | plain {code : List Instruction} (open_ : inst.kind.isTerminator = false)
      (whole : inst.kind.isControl = false) (ordinary : ∀ only ∈ code, only.op.isOrdinary = true)
      (realised : inst.Shaped → ∃ found, recipe m L.state.pool inst = .ok found ∧ Realises L inst found code) :
      InstCode scopes id inst code
  | terminator {code : Instruction} (ends : inst.kind.isTerminator = true)
      (laid : TerminatorCode m L.state scopes inst.kind code) : InstCode scopes id inst [code]
  | conditional {c : Conditional} {merge condition whenTrue whenFalse : Word}
      {needTrue needFalse : Bool} {trueCode falseCode phis : List Instruction}
      (kind : inst.kind = .conditional c) (merges : (Key.merge id, merge) ∈ L.state.bindings)
      (decides : Resolves c.condition condition L.state)
      (trueNeeds : needsBlock m (!inst.results.isEmpty) c.whenTrue = .ok needTrue)
      (falseNeeds : needsBlock m (!inst.results.isEmpty) c.whenFalse = .ok needFalse)
      (trueLaid : BranchCode m L body { scopes with ifMerge := some merge } merge c.whenTrue needTrue whenTrue trueCode)
      (falseLaid : BranchCode m L body { scopes with ifMerge := some merge } merge c.whenFalse needFalse
        whenFalse falseCode)
      (joins : ExitPhis m L.state inst c.exits [c.whenTrue, c.whenFalse] phis) :
      InstCode scopes id inst (mergeAt merge :: branchOn condition whenTrue whenFalse ::
        (trueCode ++ (falseCode ++ labelled merge :: phis)))
  | loop {l : Loop} {merge header bodyLabel continuing : Word} {entry headPhis bodyCode back phis : List Instruction}
      (kind : inst.kind = .loop l) (merges : (Key.merge id, merge) ∈ L.state.bindings)
      (fresh : header ∈ L.loose) (bodyBound : (Key.label l.body, bodyLabel) ∈ L.state.bindings)
      (continuingBound : (Key.label l.continuing, continuing) ∈ L.state.bindings)
      (enters : EntryCode m L body { scopes with loopHeader := some header, loopMerge := some merge }
        header l.initializer entry)
      (headJoins : IncomingPhis m L.state l.body headPhis)
      (bodyLaid : body { scopes with loopHeader := some header, loopMerge := some merge } l.body bodyCode)
      (returns : ReturnCode m L body { scopes with loopHeader := some header, loopMerge := some merge }
        header continuing l.continuing back)
      (joins : ExitPhis m L.state inst l.exits [] phis) :
      InstCode scopes id inst (entry ++ labelled header :: (headPhis ++ loopAt merge continuing ::
        branchTo bodyLabel :: labelled bodyLabel :: (bodyCode ++ (back ++ labelled merge :: phis))))
  | switch {s : Switch} {merge selector otherwise : Word} {default : BlockId}
      {targets : List (List (Word × Word))} {blocks : List (List Instruction)} {phis : List Instruction}
      (kind : inst.kind = .switch s) (merges : (Key.merge id, merge) ∈ L.state.bindings)
      (selects : Resolves s.condition selector L.state) (defaults : defaultBlock id s = .ok default)
      (defaultBound : (Key.label default, otherwise) ∈ L.state.bindings)
      (cases : List.Forall₂ (CaseTargets L.state) s.cases targets)
      (laid : List.Forall₂ (fun case code =>
        BlockCode m L body { scopes with switchMerge := some merge } (Case.block case) code)
        s.cases blocks)
      (joins : ExitPhis m L.state inst s.exits [] phis) :
      InstCode scopes id inst (mergeAt merge :: selectOn selector otherwise targets.flatten ::
        (blocks.flatten ++ labelled merge :: phis))

end

/-- The code of the instructions of a block whose constructs nest at most `depth` deep. -/
def BodyCode (m : Module) (L : Ledger) : (depth : Nat) → Scopes → BlockId → List Instruction → Prop
  | 0, _, _, _ => False
  | depth + 1, scopes, block, code => ∃ b, m.block block = .ok b ∧ ((b.insts = [] ∧ code = [deadEnd]) ∨
        (b.insts ≠ [] ∧ ∃ codes : List (List Instruction), code = codes.flatten ∧
          List.Forall₂ (fun id code => ∃ inst, m.inst id = .ok inst ∧
            InstCode m L (BodyCode m L depth) scopes id inst code) b.insts codes))

end Shader.Lower
