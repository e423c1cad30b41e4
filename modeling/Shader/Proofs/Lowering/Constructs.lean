import Shader.Proofs.Lowering.Phis

/-!
Constructs are lowered to the layout of their blocks.

The lowering of the instructions of a block is a parameter here, as it is where constructs are lowered.
-/
namespace Shader.Lower

open Binary Instruction List LowerState

variable {m : Module} {reached : InstId → Prop} {allowed : Key → Prop}
variable {L : Ledger} {described : List Instruction → Prop} {only : Instruction} {word : Word} {id : InstId}
  {block : BlockId} {inst : Inst} {keys : Multiset Key} {s : Switch}

theorem check_ok_bind {α β : Type} {outcome : Except Fault α} {a : α} (found : outcome = .ok a)
    (next : α → Lower β) : check outcome >>= next = next a := by
  rw [found]
  exact pure_bind a next

/-- An instruction that defines nothing. -/
theorem lays_plain {op : Opcode} {operands : List Operand} (hasType : op.grammar.resultType = false)
    (hasResult : op.grammar.result = false) (made : make op operands = .ok only)
    (holds : described [⟨op, none, none, classify op.grammar.rest op.grammar.fixed operands⟩]) :
    Lays m reached allowed L 0 (· = 0) described (.ofCode [only]) := by
  have same := make_plain hasType hasResult made
  have result : only.result = none := by rw [same]
  refine (lays_nothing result).mono (fun _ held => held) ?_
  rintro _ rfl
  rw [same]
  exact holds

theorem lays_label {key : Key} (made : make .label [.id word] = .ok only)
    (bound : (key, word) ∈ L.state.bindings) (place : key.isPlace = true) :
    Lays m reached allowed L 0 (· = {key}) (· = [labelled word]) (.ofCode [only]) := by
  have same : only = labelled word := make_untyped rfl rfl made
  rw [same]
  exact lays_instruction rfl bound fun _ => place

theorem lays_only {op : Opcode} {operands : List Operand} (hasType : op.grammar.resultType = false)
    (hasResult : op.grammar.result = false) (made : make op operands = .ok only) : Lays m reached allowed L 0 (· = 0)
      (· = [⟨op, none, none, classify op.grammar.rest op.grammar.fixed operands⟩]) (.ofCode [only]) :=
  lays_plain hasType hasResult made rfl

/-- A label for no key. -/
theorem lays_header (made : make .label [.id word] = .ok only) :
    Lays m reached allowed L {word} (· = 0) (· = [labelled word]) (.ofCode [only]) := by
  have same : only = labelled word := make_untyped rfl rfl made
  rw [same]
  exact lays_extra rfl

/-- One instruction before code that is laid out. -/
theorem Lays.cons {x : Instruction} {key : Multiset Key} {extra : Multiset Word}
    {counted counted' : Multiset Key → Prop} {described' : List Instruction → Prop} {e e' : Effect}
    (first : Lays m reached allowed L 0 (· = key) (· = [x]) e)
    (second : Lays m reached allowed L extra counted described e')
    (counts : ∀ keys, counted' keys → ∃ rest, counted rest ∧ keys = key + rest)
    (describes : ∀ code, described code → described' (x :: code)) :
    Lays m reached allowed L extra counted' described' (e ++ e') := by
  have whole := first.append second
  rw [zero_add] at whole
  refine whole.mono (fun keys held => ?_) ?_
  · obtain ⟨rest, holds, same⟩ := counts keys held
    exact ⟨key, rest, rfl, holds, same⟩
  · rintro _ ⟨_, code, rfl, holds, rfl⟩
    exact describes code holds

theorem gathers_targetLabel (label : Option Word) (kind : Kind) (id : InstId) :
    Gathers allowed (targetLabel label kind id) fun word _ => label = some word := by
  unfold targetLabel
  cases label with
  | none => exact .fail _
  | some word => exact .pure fun _ => rfl

/-- A branch to a label that an enclosing construct has set. -/
theorem ensures_jump {label : Option Word} {scopes : Scopes} {kind : Kind}
    (holds : ∀ s word, label = some word → TerminatorCode m s scopes kind (branchTo word)) :
    Ensures (do
      let word ← targetLabel label kind id
      emit .branch [.id word]) fun _ L e => Lays m reached allowed L 0 (· = 0)
        (fun code => ∃ x, TerminatorCode m L.state scopes kind x ∧ code = [x]) e := by
  refine .after (gathers_targetLabel _ _ _) fun word => .emit fun L only made given => ?_
  exact lays_plain rfl rfl made ⟨_, holds L.state word given, rfl⟩

theorem ensures_terminator (scopes : Scopes) (id : InstId) (kind : Kind)
    (operands : ∀ value, .ssa value ∈ kind.operands → allowed (.value value))
    (continuing : ∀ target args construct l, kind = .continueTo target args →
      m.inst target = .ok construct → construct.kind = .loop l → allowed (.label l.continuing)) :
    Ensures (emitTerminator m scopes id kind) fun _ L e => Lays m reached allowed L 0 (· = 0)
      (fun code => ∃ x, TerminatorCode m L.state scopes kind x ∧ code = [x]) e := by
  cases kind with
  | ret value =>
    cases value with
    | none =>
      refine .emit fun L only made => ?_
      exact lays_plain rfl rfl made ⟨_, rfl, rfl⟩
    | some value =>
      refine .after (gathers_valueId m fun id same => operands id (by simp [Kind.operands, same])) fun word => ?_
      refine .emit fun L only made resolved => ?_
      exact lays_plain rfl rfl made ⟨_, ⟨word, resolved, rfl⟩, rfl⟩
  | breakIf condition target nextArgs exitArgs =>
    refine .after (gathers_valueId m fun id same => operands id (by simp [Kind.operands, same])) fun word => ?_
    refine .after (gathers_targetLabel _ _ _) fun merge => .after (gathers_targetLabel _ _ _) fun header => ?_
    refine .emit fun L only made toHeader toMerge resolved => ?_
    exact lays_plain rfl rfl made ⟨_, ⟨word, merge, header, resolved, toMerge, toHeader, rfl⟩, rfl⟩
  | continueTo target args =>
    unfold emitTerminator
    dsimp only
    refine .check_next fun construct found => ?_
    split
    · rename_i l loop
      refine .after (gathers_labelId (continuing target args construct l rfl found loop)) fun label => ?_
      refine .emit fun L only made bound => ?_
      exact lays_plain rfl rfl made ⟨_, ⟨construct, l, label, found, loop, bound, rfl⟩, rfl⟩
    · exact .fail _
  | exitIf target args | exitLoop target args | exitSwitch target args =>
    exact ensures_jump fun _ merge given => ⟨merge, given, rfl⟩
  | nextIteration target args => exact ensures_jump fun _ header given => ⟨header, given, rfl⟩
  | _ =>
    refine .emit fun L only made => ?_
    exact lays_plain rfl rfl made ⟨_, rfl, rfl⟩

theorem terminator?_eq_some (ends : m.terminator? block = .ok (some id)) :
    ∃ b inst, m.block block = .ok b ∧ b.insts.getLast? = some id ∧ m.inst id = .ok inst ∧
      inst.kind.isTerminator = true := by
  obtain ⟨b, found, rest⟩ := bind_eq_ok.mp ends
  cases last : b.insts.getLast? with
  | none =>
    rw [last] at rest
    cases rest
  | some other =>
    rw [last] at rest
    obtain ⟨inst, held, rest⟩ := bind_eq_ok.mp rest
    cases isEnd : inst.kind.isTerminator <;> rw [isEnd] at rest <;> cases rest
    exact ⟨b, inst, found, last, held, isEnd⟩

/-- A branch of a conditional without a block of its own has at most one instruction, and if that ends
the block it leaves the conditional. -/
theorem needsBlock_eq_false {hasResults : Bool} (elided : needsBlock m hasResults block = .ok false) :
    hasResults = false ∧ ∃ b, m.block block = .ok b ∧ b.insts.length ≤ 1 ∧ ∀ id, m.terminator? block = .ok (some id) →
        ∃ inst target args, m.inst id = .ok inst ∧ inst.kind = .exitIf target args := by
  obtain ⟨b, found, rest⟩ := bind_eq_ok.mp elided
  obtain ⟨last, ends, rest⟩ := bind_eq_ok.mp rest
  cases last with
  | none =>
    have small : b.insts.length ≤ 1 ∧ hasResults = false := by simpa using Except.ok.inj rest
    exact ⟨small.2, b, found, small.1, fun id same => by cases ends.symm.trans same⟩
  | some terminator =>
    obtain ⟨inst, held, rest⟩ := bind_eq_ok.mp rest
    cases kind : inst.kind with
    | exitIf target args =>
      rw [kind] at rest
      have small : b.insts.length ≤ 1 ∧ hasResults = false := by simpa using Except.ok.inj rest
      refine ⟨small.2, b, found, small.1, fun id same => ?_⟩
      cases ends.symm.trans same
      exact ⟨inst, target, args, held, kind⟩
    | _ => simp [kind] at rest

/-- The label of a block and the parameters that have phis. -/
def blockKeys (m : Module) (block : BlockId) : Except Fault (List Key) := do
  let b ← m.block block
  return .label block :: if b.insts.isEmpty then [] else b.params.map .value

/-- The blocks have their instructions lowered to what is described, and `under` says which keys that
defines. Only blocks that are finished or empty are counted. -/
structure Lowers (m : Module) (reached : InstId → Prop) (allowed : Key → Prop)
    (body : Scopes → BlockId → Lower Unit) (described : Ledger → Scopes → BlockId → List Instruction → Prop)
    (under : BlockId → Multiset Key → Prop) (blocks : List BlockId) : Prop where
  laid : ∀ scopes, ∀ block ∈ blocks, Ensures (body scopes block) fun _ L e =>
    Lays m reached allowed L 0 (under block) (described L scopes block) e
  idle : ∀ block ∈ blocks, ∀ b, m.block block = .ok b → (∀ id ∈ b.insts, ∃ inst, m.inst id = .ok inst ∧
    inst.kind.isTerminator = true) → ∀ keys, under block keys → keys = 0
  finished : ∀ block ∈ blocks, ∀ b, m.block block = .ok b → b.insts ≠ [] → ∀ keys, under block keys →
    ∃ id, m.terminator? block = .ok (some id)

/-- What a lowering may refer to for the sake of a block. -/
structure PermitsBlock (m : Module) (allowed : Key → Prop) (block : BlockId) : Prop where
  label : allowed (.label block)
  params : ∀ b, m.block block = .ok b → b.insts ≠ [] → ∀ value ∈ b.params, allowed (.value value)
  labels : ∀ b, m.block block = .ok b → b.insts ≠ [] → b.params ≠ [] → ∀ branch ∈ b.inbound,
    ∀ key, LeavesWith m Kind.branchArgs branch key → allowed key
  args : ∀ b, m.block block = .ok b → b.insts ≠ [] → b.params ≠ [] → ∀ branch ∈ b.inbound,
    ∀ inst value, m.inst branch = .ok inst → .ssa value ∈ inst.kind.branchArgs → allowed (.value value)
  onward : ∀ b parent owner, m.block block = .ok b → b.insts = [] → b.parent = some parent →
    m.inst parent = .ok owner → owner.results ≠ [] → allowed (.merge parent)

theorem permitsBlock_of_mentions (permits : ∀ key, Mentions m id inst key → allowed key)
    (member : block ∈ inst.kind.children) (laid : ¬Elided m inst block) : PermitsBlock m allowed block where
  label := permits _ (.child member laid)
  params _ found inhabited _ param := permits _ (.param member found (.inl ⟨inhabited, laid⟩) param)
  labels _ found inhabited params _ listed _ leaves :=
    permits _ (.inboundLabel member found (.inl ⟨inhabited, laid⟩) params listed leaves)
  args _ found inhabited params _ listed _ _ held arg :=
    permits _ (.inboundArg member found (.inl ⟨inhabited, laid⟩) params listed held arg)
  onward _ _ _ found empty owned held results := permits _ (.onward member found empty owned held results)

theorem permitsBlock_of_needed (permits : ∀ key, Mentions m id inst key → allowed key)
    (member : block ∈ inst.kind.children) {need : Bool} (needs : needsBlock m (!inst.results.isEmpty) block = .ok need)
    (needed : need = true) : PermitsBlock m allowed block := by
  refine permitsBlock_of_mentions permits member ?_
  rintro ⟨-, -, elided⟩
  cases needed ▸ needs.symm.trans elided

theorem ensures_exitPhis_of_mentions (reached : InstId → Prop) {exits : List InstId}
    (listed : inst.kind.exits = exits) (permits : ∀ key, Mentions m id inst key → allowed key)
    (implicit : List BlockId) (empty : inst.results ≠ [] → ∀ block ∈ implicit, allowed (.label block)) :
    Ensures (emitExitPhis m id inst exits implicit) fun _ L e =>
      Lays m reached allowed L 0 (· = ↑(inst.results.map Key.value)) (ExitPhis m L.state inst exits implicit) e := by
  subst listed
  exact ensures_exitPhis id inst inst.kind.exits implicit (fun _ member => permits _ (.result member))
    (fun results _ listed _ leaves => permits _ (.exitLabel results listed leaves))
    (fun results _ listed _ _ held arg => permits _ (.exitArg results listed held arg))
    fun results block member _ => empty results block member

theorem ensures_headPhis (member : block ∈ inst.kind.children) (joined : ∀ b, Joined m inst block b)
    (permits : ∀ key, Mentions m id inst key → allowed key) :
    Ensures (emitIncomingPhis m block) fun _ L e => Lays m reached allowed L 0
      (fun keys => ∃ b, m.block block = .ok b ∧ keys = ↑(b.params.map Key.value))
      (IncomingPhis m L.state block) e := by
  cases found : m.block block with
  | error fault =>
    unfold emitIncomingPhis
    rw [found]
    exact .fail_bind _
  | ok b =>
    refine (ensures_incomingPhis found (fun _ param => permits _ (.param member found (joined b) param))
      (fun params _ listed _ leaves => permits _ (.inboundLabel member found (joined b) params listed leaves))
      (fun params _ listed _ _ held arg => permits _ (.inboundArg member found (joined b) params listed held arg))
      ).mono fun _ L e laid => laid.mono ?_ fun _ holds => holds
    rintro _ ⟨_, same, rfl⟩
    cases same
    rfl

/-- What is defined for the sake of a branch of a conditional, its instructions aside. -/
def branchKeys (m : Module) (inst : Inst) (block : BlockId) : Except Fault (List Key) := do
  if ← needsBlock m (!inst.results.isEmpty) block then blockKeys m block else return []

/-- What is defined for the sake of the blocks of an instruction, their instructions aside. -/
def constructKeys (m : Module) (id : InstId) (inst : Inst) : Except Fault (List Key) :=
  match inst.kind with
  | .conditional c => do return .merge id :: (← [c.whenTrue, c.whenFalse].mapM (branchKeys m inst)).flatten
  | .loop l => do
    let body ← m.block l.body
    let others ← (l.initializer.toList ++ [l.continuing]).mapM (blockKeys m)
    return .merge id :: .label l.body :: (body.params.map .value ++ others.flatten)
  | .switch s => do return .merge id :: (← s.cases.mapM fun case => blockKeys m case.block).flatten
  | _ => return []

/-- What is defined for the sake of an instruction, the instructions of its blocks aside. -/
def ownKeys (m : Module) (id : InstId) (inst : Inst) : Except Fault (List Key) := do
  return (← constructKeys m id inst) ++ inst.results.map .value

/-- The label that leads to a branch of a conditional. -/
def branchLabel (merge : Word) (block : BlockId) (need : Bool) : Lower Word :=
  if need then labelId block else pure merge

/-- Lower a branch of a conditional if it has a block of its own. -/
def emitBranch (m : Module) (body : Scopes → BlockId → Lower Unit) (scopes : Scopes) (block : BlockId)
    (need : Bool) : Lower Unit :=
  if need then emitBlock m body scopes block else pure ()

theorem emitConditional_eq (m : Module) (body : Scopes → BlockId → Lower Unit) (scopes : Scopes)
    (id : InstId) (inst : Inst) (c : Conditional) :
    emitConditional m body scopes id inst c = (do
      let merge ← mergeId id
      let needTrue ← check (needsBlock m (!inst.results.isEmpty) c.whenTrue)
      let needFalse ← check (needsBlock m (!inst.results.isEmpty) c.whenFalse)
      let trueLabel ← branchLabel merge c.whenTrue needTrue
      let falseLabel ← branchLabel merge c.whenFalse needFalse
      emit .selectionMerge [.id merge, .literal noControl]
      let condition ← valueId m c.condition
      emit .branchConditional [.id condition, .id trueLabel, .id falseLabel]
      emitBranch m body { scopes with ifMerge := some merge } c.whenTrue needTrue
      emitBranch m body { scopes with ifMerge := some merge } c.whenFalse needFalse
      emit .label [.id merge]
      emitExitPhis m id inst c.exits [c.whenTrue, c.whenFalse]) := by
  unfold emitConditional
  dsimp only
  congr; funext merge; congr; funext needTrue; congr; funext needFalse
  cases needTrue <;> cases needFalse <;> simp [branchLabel, emitBranch]

section
variable {body : Scopes → BlockId → Lower Unit}
  {described : Ledger → Scopes → BlockId → List Instruction → Prop} {under : BlockId → Multiset Key → Prop}
  {blocks : List BlockId}
variable {c : Conditional} {initializer : Option BlockId}

/-- The keys of a block by itself, with those of the instructions under it. -/
abbrev KeysWith (own : Except Fault (List Key)) (under : Multiset Key → Prop) (keys : Multiset Key) : Prop :=
  ∃ here rest, own = .ok here ∧ under rest ∧ keys = ↑here + rest

theorem ensures_block (lowers : Lowers m reached allowed body described under blocks) (scopes : Scopes)
    (member : block ∈ blocks) (permits : PermitsBlock m allowed block) :
    Ensures (emitBlock m body scopes block) fun _ L e =>
      Lays m reached allowed L 0 (KeysWith (blockKeys m block) (under block))
        (BlockCode m L (described L) scopes block) e := by
  unfold emitBlock
  refine .after (gathers_labelId permits.label) fun label => ?_
  refine (ensures_emit _ _).bind fun _ => ?_
  refine .check_next fun b found => ?_
  by_cases empty : b.insts = []
  · have own : blockKeys m block = .ok [.label block] := by
      simp [blockKeys, found, empty]
    have idle := lowers.idle block member b found (by simp [empty])
    -- Both ways to end an empty block add one instruction that defines nothing.
    have ended : ∀ {L : Ledger} {only x : Instruction} {last : Effect},
        make .label [.id label] = .ok only → (Key.label block, label) ∈ L.state.bindings →
        Lays m reached allowed L 0 (· = 0) (· = [x]) last →
        BlockCode m L (described L) scopes block [labelled label, x] →
        Lays m reached allowed L 0 (KeysWith (blockKeys m block) (under block))
          (BlockCode m L (described L) scopes block) (.ofCode [only] ++ last) := by
      intro L only x last made bound closed laid
      refine (lays_label made bound rfl).cons closed ?_ ?_
      · rintro _ ⟨_, rest, ownIs, counted, rfl⟩
        cases own.symm.trans ownIs
        exact ⟨0, rfl, by rw [idle rest counted]; rfl⟩
      · rintro _ rfl
        exact laid
    simp only [empty, isEmpty_nil, if_true]
    cases owned : b.parent with
    | none =>
      refine .emit fun L last made' => ?_
      rintro e' ⟨only, made, rfl⟩ bound
      exact ended made bound (lays_plain rfl rfl made' rfl) (.stuck found empty (by simp [owned]) bound)
    | some parent =>
      dsimp only
      refine .check_next fun owner held => ?_
      refine .ite (fun silent => ?_) fun inhabited => ?_
      · have none : ∀ other owner, b.parent = some other → m.inst other = .ok owner → owner.results = [] := by
          intro other owner same held'
          cases owned.symm.trans same
          cases held.symm.trans held'
          simpa using silent
        refine .emit fun L last made' => ?_
        rintro e' ⟨only, made, rfl⟩ bound
        exact ended made bound (lays_plain rfl rfl made' rfl) (.stuck found empty none bound)
      · have results : owner.results ≠ [] := fun none => inhabited (by simp [none])
        have merges := permits.onward b parent owner found empty owned held results
        refine Ensures.bind (gathers_mergeId merges) fun merge => .emit fun L last made' => ?_
        rintro gathered ⟨silent, merges⟩ e' ⟨only, made, rfl⟩ bound
        exact ended made bound ((lays_only rfl rfl made').silent_append silent)
          (.onward found empty owned held results bound merges)
  · have own : blockKeys m block = .ok (.label block :: b.params.map .value) := by
      simp [blockKeys, found, empty]
    have phis : Ensures (emitIncomingPhis m block) fun _ L e =>
        Lays m reached allowed L 0 (· = ↑(b.params.map Key.value)) (IncomingPhis m L.state block) e :=
      ensures_incomingPhis found (permits.params b found empty) (permits.labels b found empty)
        (permits.args b found empty)
    have full : Ensures (do
        emitIncomingPhis m block
        body scopes block) fun _ L e => ∀ e', (∃ only, make .label [.id label] = .ok only ∧
          e' = .ofCode [only]) → (Key.label block, label) ∈ L.state.bindings →
          Lays m reached allowed L 0 (KeysWith (blockKeys m block) (under block))
            (BlockCode m L (described L) scopes block) (e' ++ e) := by
      refine phis.bind fun _ => (lowers.laid scopes block member).mono ?_
      rintro _ L e laid e' joins _ ⟨only, made, rfl⟩ bound
      refine (lays_label made bound rfl).cons (joins.append laid) ?_ ?_
      · rintro _ ⟨_, rest, ownIs, counted, rfl⟩
        cases own.symm.trans ownIs
        exact ⟨_, ⟨_, rest, rfl, counted, rfl⟩, by rw [← add_assoc]; rfl⟩
      · rintro _ ⟨phis, code, joined, holds, rfl⟩
        exact .full found empty bound joined holds
    simp only [empty, List.isEmpty_iff, if_false]
    by_cases bare : b.params = []
    · have same : emitIncomingPhis m block = pure () := by
        unfold emitIncomingPhis
        rw [check_ok_bind found, bare]
        rfl
      rw [same, pure_bind] at full
      simpa [bare] using full
    · simpa [bare] using full

theorem Lowers.elided (lowers : Lowers m reached allowed body described under blocks) (member : block ∈ blocks)
    {hasResults : Bool} (elided : needsBlock m hasResults block = .ok false) (counted : under block keys) :
    keys = 0 := by
  obtain ⟨-, b, found, short, -⟩ := needsBlock_eq_false elided
  refine lowers.idle block member b found ?_ keys counted
  intro id listed
  obtain ⟨last, ends⟩ := lowers.finished block member b found (ne_nil_of_mem listed) keys counted
  obtain ⟨b', inst, found', isLast, held, isEnd⟩ := terminator?_eq_some ends
  cases found.symm.trans found'
  have only : b.insts = [id] := by
    obtain ⟨first, rest, same⟩ := exists_cons_of_ne_nil (ne_nil_of_mem listed)
    rw [same] at short listed ⊢
    cases eq_nil_of_length_eq_zero (Nat.le_zero.mp (Nat.le_of_succ_le_succ short))
    rw [mem_singleton.mp listed]
  rw [only] at isLast
  cases isLast
  exact ⟨inst, held, isEnd⟩

theorem gathers_branchLabel {merge : Word} {need : Bool} (fits : need = true → allowed (.label block)) :
    Gathers allowed (branchLabel merge block need) fun label s =>
      if need then (Key.label block, label) ∈ s.bindings else label = merge := by
  cases need with
  | false => exact .pure fun _ => rfl
  | true => exact gathers_labelId (fits rfl)

theorem ensures_branch (lowers : Lowers m reached allowed body described under blocks) (scopes : Scopes)
    (member : block ∈ blocks) {need : Bool} (needs : needsBlock m (!inst.results.isEmpty) block = .ok need)
    (permits : need = true → PermitsBlock m allowed block) (merge label : Word) :
    Ensures (emitBranch m body scopes block need) fun _ L e =>
      (if need then (Key.label block, label) ∈ L.state.bindings else label = merge) →
      Lays m reached allowed L 0 (KeysWith (branchKeys m inst block) (under block))
        (BranchCode m L (described L) scopes merge block need label) e := by
  have own : branchKeys m inst block = if need then blockKeys m block else .ok [] := by
    unfold branchKeys
    rw [needs]
    cases need <;> rfl
  cases need with
  | false =>
    refine .pure fun L same => ?_
    refine (Lays.of_silent .empty).mono ?_ ?_
    · rintro _ ⟨_, rest, ownIs, counted, rfl⟩
      cases own.symm.trans ownIs
      rw [lowers.elided member needs counted]
      rfl
    · rintro _ rfl
      cases same
      exact .elided
  | true =>
    refine (ensures_block lowers scopes member (permits rfl)).mono fun _ L e laid bound => ?_
    refine laid.mono ?_ fun code holds => .laid bound holds
    rintro _ ⟨_, rest, ownIs, counted, rfl⟩
    exact ⟨_, rest, own.symm.trans ownIs, counted, rfl⟩

/-- The keys of an instruction and of the instructions of its blocks. -/
def InstKeys (m : Module) (under : BlockId → Multiset Key → Prop) (id : InstId) (inst : Inst)
    (keys : Multiset Key) : Prop :=
  ∃ own parts, ownKeys m id inst = .ok own ∧ Forall₂ under inst.kind.children parts ∧ keys = ↑own + parts.sum

/-- An instruction is laid out, and the keys are counted that it and the instructions of its blocks define. -/
abbrev LaysInst (m : Module) (reached : InstId → Prop) (allowed : Key → Prop) (under : BlockId → Multiset Key → Prop)
    (described : Scopes → BlockId → List Instruction → Prop) (scopes : Scopes) (id : InstId) (inst : Inst)
    (extra : Multiset Word) (L : Ledger) (e : Effect) : Prop :=
  Lays m reached allowed L extra (fun keys => inst.Shaped ∧ InstKeys m under id inst keys)
    (InstCode m L described scopes id inst) e

theorem ownKeys_eq_ok {own : List Key} (found : ownKeys m id inst = .ok own) :
    ∃ construct, constructKeys m id inst = .ok construct ∧ own = construct ++ inst.results.map .value := by
  obtain ⟨construct, held, same⟩ := bind_eq_ok.mp found
  cases same
  exact ⟨construct, held, rfl⟩

theorem InstKeys.conditional (kind : inst.kind = .conditional c) (counted : InstKeys m under id inst keys) :
    ∃ a b x y, branchKeys m inst c.whenTrue = .ok a ∧ branchKeys m inst c.whenFalse = .ok b ∧
      under c.whenTrue x ∧ under c.whenFalse y ∧
      keys = (↑a + x) + ((↑b + y) + ({.merge id} + ↑(inst.results.map Key.value))) := by
  obtain ⟨own, parts, found, each, rfl⟩ := counted
  obtain ⟨construct, held, rfl⟩ := ownKeys_eq_ok found
  simp only [constructKeys, kind] at held
  obtain ⟨lists, listed, same⟩ := bind_eq_ok.mp held
  cases same
  rw [kind] at each
  rcases mapM_eq_ok.mp listed with _ | ⟨one, _ | ⟨two, _ | _⟩⟩
  rcases each with _ | ⟨first, _ | ⟨second, _ | _⟩⟩
  refine ⟨_, _, _, _, one, two, first, second, ?_⟩
  simp only [flatten_cons, flatten_nil, append_nil, cons_append, sum_cons,
    sum_nil, ← Multiset.cons_coe, ← Multiset.coe_add, ← Multiset.singleton_add]
  abel

theorem ensures_conditional (kind : inst.kind = .conditional c)
    (lowers : Lowers m reached allowed body described under inst.kind.children)
    (permits : ∀ key, Mentions m id inst key → allowed key) (scopes : Scopes) :
    Ensures (emitConditional m body scopes id inst c) fun _ L =>
      LaysInst m reached allowed under (described L) scopes id inst 0 L := by
  rw [emitConditional_eq]
  have children : inst.kind.children = [c.whenTrue, c.whenFalse] := by rw [kind]; rfl
  refine .after (gathers_mergeId (permits _ (.merge (by rw [kind]; rfl)))) fun merge => ?_
  refine .check_next fun needTrue trueNeeds => ?_
  refine .check_next fun needFalse falseNeeds => ?_
  have trueChild : c.whenTrue ∈ inst.kind.children := by simp [children]
  have falseChild : c.whenFalse ∈ inst.kind.children := by simp [children]
  have permitsTrue := permitsBlock_of_needed permits trueChild trueNeeds
  have permitsFalse := permitsBlock_of_needed permits falseChild falseNeeds
  have exits : inst.kind.exits = c.exits := by rw [kind]; rfl
  have phis := ensures_exitPhis_of_mentions reached exits permits [c.whenTrue, c.whenFalse] (by
    intro results block member
    refine permits _ (.child (children ▸ member) ?_)
    rintro ⟨-, -, elided⟩
    simpa using results (isEmpty_iff.mp (by simpa using (needsBlock_eq_false elided).1)))
  refine .after (gathers_branchLabel fun need => (permitsTrue need).label) fun trueLabel => ?_
  refine .after (gathers_branchLabel fun need => (permitsFalse need).label) fun falseLabel => ?_
  refine (ensures_emit _ _).bind fun _ => ?_
  refine Ensures.bind (gathers_valueId m fun v same => permits _ (.operand ?_)) fun condition => ?_
  · simp [kind, Kind.operands, same]
  refine (ensures_emit _ _).bind fun _ => ?_
  refine (ensures_branch lowers _ trueChild trueNeeds permitsTrue merge trueLabel).bind fun _ => ?_
  refine (ensures_branch lowers _ falseChild falseNeeds permitsFalse merge falseLabel).bind fun _ => ?_
  refine (ensures_emit _ _).bind fun _ => phis.mono ?_
  rintro _ L e joins _ ⟨last, lastMade, rfl⟩ _ falseLaid _ trueLaid _ ⟨branch, branchMade, rfl⟩
    _ ⟨silent, decides⟩ _ ⟨first, firstMade, rfl⟩ falseBound trueBound merges
  have tail := (trueLaid trueBound).append ((falseLaid falseBound).append
    ((lays_label lastMade merges rfl).append joins))
  have whole := (lays_only rfl rfl firstMade).append (((lays_only rfl rfl branchMade).append tail).silent_append silent)
  refine whole.mono ?_ ?_
  · rintro keys ⟨-, counted⟩
    obtain ⟨a, b, x, y, one, two, first, second, rfl⟩ := counted.conditional kind
    exact ⟨0, _, rfl, ⟨0, _, rfl, ⟨_, _, ⟨a, x, one, first, rfl⟩, ⟨_, _, ⟨b, y, two, second, rfl⟩,
      ⟨_, _, rfl, rfl, rfl⟩, rfl⟩, rfl⟩, (zero_add _).symm⟩, (zero_add _).symm⟩
  · rintro _ ⟨_, _, rfl, ⟨_, _, rfl, ⟨trueCode, _, trueHolds, ⟨falseCode, _, falseHolds,
      ⟨_, phis, rfl, joined, rfl⟩, rfl⟩, rfl⟩, rfl⟩, rfl⟩
    exact .conditional kind merges decides trueNeeds falseNeeds trueHolds falseHolds joined

/-- Lower the way from before a loop to its header. -/
def enterLoop (m : Module) (body : Scopes → BlockId → Lower Unit) (scopes : Scopes) (header : Word)
    (initializer : Option BlockId) (label : Option Word) : Lower Unit :=
  match initializer, label with
  | some initializer, some label => do
    emit .branch [.id label]
    emitBlock m body scopes initializer
  | _, _ => emit .branch [.id header]

/-- Lower the way from the continuing block of a loop back to its header. -/
def returnLoop (m : Module) (body : Scopes → BlockId → Lower Unit) (scopes : Scopes)
    (header continuing : Word) (block : BlockId) : Lower Unit := do
  if (← check (m.terminator? block)).isSome then
    emitBlock m body scopes block
  else
    emit .label [.id continuing]
    emit .branch [.id header]

theorem emitLoop_eq (m : Module) (body : Scopes → BlockId → Lower Unit) (scopes : Scopes) (id : InstId)
    (inst : Inst) (l : Loop) :
    emitLoop m body scopes id inst l = (do
      let initializerLabel ← l.initializer.mapM labelId
      let bodyLabel ← labelId l.body
      let continuingLabel ← labelId l.continuing
      let header ← fresh
      let merge ← mergeId id
      enterLoop m body { scopes with loopHeader := some header, loopMerge := some merge } header
        l.initializer initializerLabel
      emit .label [.id header]
      emitIncomingPhis m l.body
      emit .loopMerge [.id merge, .id continuingLabel, .literal noControl]
      emit .branch [.id bodyLabel]
      emit .label [.id bodyLabel]
      body { scopes with loopHeader := some header, loopMerge := some merge } l.body
      returnLoop m body { scopes with loopHeader := some header, loopMerge := some merge } header
        continuingLabel l.continuing
      emit .label [.id merge]
      emitExitPhis m id inst l.exits []) := by
  unfold emitLoop
  dsimp only
  congr; funext initializerLabel; congr; funext bodyLabel; congr; funext continuingLabel
  congr; funext header; congr; funext merge
  have back : ∀ rest : Lower Unit, (returnLoop m body
      { scopes with loopHeader := some header, loopMerge := some merge } header continuingLabel l.continuing
      >>= fun _ => rest) = (do
        if (← check (m.terminator? l.continuing)).isSome then
          emitBlock m body { scopes with loopHeader := some header, loopMerge := some merge } l.continuing
          rest
        else
          emit .label [.id continuingLabel]
          emit .branch [.id header]
          rest) := by
    intro rest
    unfold returnLoop
    rw [bind_assoc]
    congr; funext terminator
    cases terminator <;> simp
  cases l.initializer <;> cases initializerLabel <;> simp [enterLoop, back]

theorem gathers_initializerLabel (fits : ∀ block, initializer = some block → allowed (.label block)) :
    Gathers allowed (initializer.mapM labelId) fun label s =>
      Option.Rel (fun block word => (Key.label block, word) ∈ s.bindings) initializer label := by
  cases initializer with
  | none => exact .pure fun _ => .none
  | some block => exact (gathers_labelId (fits block rfl)).map fun _ _ bound => .some bound

theorem ensures_enterLoop (lowers : Lowers m reached allowed body described under blocks) (scopes : Scopes)
    (header : Word) (label : Option Word)
    (member : ∀ block, initializer = some block → block ∈ blocks)
    (permits : ∀ block, initializer = some block → PermitsBlock m allowed block) :
    Ensures (enterLoop m body scopes header initializer label) fun _ L e =>
      Option.Rel (fun block word => (Key.label block, word) ∈ L.state.bindings) initializer label →
      Lays m reached allowed L 0 (fun keys => ∃ owns rests, initializer.toList.mapM (blockKeys m) = .ok owns ∧
          Forall₂ under initializer.toList rests ∧ keys = ↑owns.flatten + rests.sum)
        (EntryCode m L (described L) scopes header initializer) e := by
  cases initializer with
  | none =>
    refine .emit fun L only made _ => (lays_only rfl rfl made).mono ?_ ?_
    · rintro _ ⟨owns, rests, found, counted, rfl⟩
      cases found
      cases counted
      rfl
    · rintro _ rfl
      exact .direct
  | some block =>
    cases label with
    | none => exact (ensures_emit _ _).mono fun _ L e _ related => by cases related
    | some word =>
      refine (ensures_emit _ _).bind fun _ => ?_
      refine (ensures_block lowers scopes (member block rfl) (permits block rfl)).mono ?_
      rintro _ L e laid _ ⟨only, made, rfl⟩ related
      cases related with
      | some bound =>
        refine (lays_only rfl rfl made).cons laid ?_ fun code holds => .through bound holds
        rintro _ ⟨owns, rests, found, counted, rfl⟩
        rcases mapM_eq_ok.mp found with _ | ⟨own, _ | _⟩
        rcases counted with _ | ⟨rest, _ | _⟩
        exact ⟨_, ⟨_, _, own, rest, rfl⟩, by simp⟩

theorem ensures_returnLoop (lowers : Lowers m reached allowed body described under blocks) (scopes : Scopes)
    (header continuing : Word) (member : block ∈ blocks) (permits : PermitsBlock m allowed block) :
    Ensures (returnLoop m body scopes header continuing block) fun _ L e =>
      (Key.label block, continuing) ∈ L.state.bindings →
      Lays m reached allowed L 0 (KeysWith (blockKeys m block) (under block))
        (ReturnCode m L (described L) scopes header continuing block) e := by
  unfold returnLoop
  refine .check_next fun terminator ends => ?_
  cases terminator with
  | some id =>
    refine (ensures_block lowers scopes member permits).mono fun _ L e laid _ => ?_
    exact laid.mono (fun _ counted => counted) fun code holds => .finished ends holds
  | none =>
    refine (ensures_emit _ _).bind fun _ => .emit fun L last lastMade => ?_
    rintro _ ⟨only, made, rfl⟩ bound
    refine (lays_label made bound rfl).cons (lays_only rfl rfl lastMade) ?_ ?_
    · rintro _ ⟨own, rest, found, counted, rfl⟩
      obtain ⟨b, held, same⟩ := bind_eq_ok.mp found
      have empty : b.insts = [] := by
        by_contra inhabited
        obtain ⟨id, ends'⟩ := lowers.finished block member b held inhabited rest counted
        cases ends.symm.trans ends'
      have nothing := lowers.idle block member b held (by simp [empty]) rest counted
      cases same
      exact ⟨0, rfl, by simp [empty, nothing]⟩
    · rintro _ rfl
      exact .unfinished ends

theorem Lays.taken {counted : Multiset Key → Prop} {described : List Instruction → Prop} {e : Effect}
    (laid : Lays m reached allowed L {word} counted described e) :
    Lays m reached allowed L 0 counted described ({ taken := [(none, word)] } ++ e) where
  functions := laid.functions
  passed := laid.passed
  code := laid.code
  labels := by
    have one : ({ taken := [(none, word)] } : Effect).loose = {word} := rfl
    refine laid.labels.mono (le_of_eq ?_)
    rw [Effect.loose_append, one]
    abel
  accounts keys held := .taken (by simpa using laid.accounts keys held)

theorem InstKeys.loop {l : Loop} (kind : inst.kind = .loop l) (counted : InstKeys m under id inst keys) :
    ∃ b owns rests rest own back, m.block l.body = .ok b ∧
      l.initializer.toList.mapM (blockKeys m) = .ok owns ∧ Forall₂ under l.initializer.toList rests ∧
      under l.body rest ∧ blockKeys m l.continuing = .ok own ∧ under l.continuing back ∧
      keys = (↑owns.flatten + rests.sum) + (↑(b.params.map Key.value) + ({.label l.body} + (rest +
        ((↑own + back) + ({.merge id} + ↑(inst.results.map Key.value)))))) := by
  obtain ⟨own, parts, found, each, rfl⟩ := counted
  obtain ⟨construct, held, rfl⟩ := ownKeys_eq_ok found
  simp only [constructKeys, kind] at held
  obtain ⟨b, body, rest⟩ := bind_eq_ok.mp held
  obtain ⟨lists, listed, same⟩ := bind_eq_ok.mp rest
  cases same
  rw [kind] at each
  cases given : l.initializer with
  | none =>
    rw [given] at listed
    simp only [Kind.children, given] at each
    rcases mapM_eq_ok.mp listed with _ | ⟨last, _ | _⟩
    rcases each with _ | ⟨first, _ | ⟨second, _ | _⟩⟩
    refine ⟨b, [], [], _, _, _, body, rfl, .nil, first, last, second, ?_⟩
    simp only [flatten_cons, flatten_nil, append_nil, cons_append, sum_cons,
      sum_nil, ← Multiset.cons_coe, ← Multiset.coe_add, ← Multiset.singleton_add, Multiset.coe_nil]
    abel
  | some initializer =>
    rw [given] at listed
    simp only [Kind.children, given] at each
    rcases mapM_eq_ok.mp listed with _ | ⟨enter, _ | ⟨last, _ | _⟩⟩
    rcases each with _ | ⟨zeroth, _ | ⟨first, _ | ⟨second, _ | _⟩⟩⟩
    refine ⟨b, [_], [_], _, _, _, body, mapM_eq_ok.mpr (.cons enter .nil), .cons zeroth .nil, first, last, second, ?_⟩
    simp only [flatten_cons, flatten_nil, append_nil, cons_append, sum_cons,
      sum_nil, ← Multiset.cons_coe, ← Multiset.coe_add, ← Multiset.singleton_add]
    abel

theorem ensures_loop {l : Loop} (kind : inst.kind = .loop l)
    (lowers : Lowers m reached allowed body described under inst.kind.children)
    (permits : ∀ key, Mentions m id inst key → allowed key) (scopes : Scopes) :
    Ensures (emitLoop m body scopes id inst l) fun _ L =>
      LaysInst m reached allowed under (described L) scopes id inst 0 L := by
  rw [emitLoop_eq]
  have children : inst.kind.children = l.initializer.toList ++ [l.body, l.continuing] := by rw [kind]; rfl
  have whole (block : BlockId) : ¬Elided m inst block := not_elided (by simp [kind])
  have enterChild : ∀ block, l.initializer = some block → block ∈ inst.kind.children := by
    intro block given
    simp [children, given]
  have bodyChild : l.body ∈ inst.kind.children := by simp [children]
  have continuingChild : l.continuing ∈ inst.kind.children := by simp [children]
  have permitsEnter : ∀ block, l.initializer = some block → PermitsBlock m allowed block :=
    fun block given => permitsBlock_of_mentions permits (enterChild block given) (whole block)
  have permitsBack := permitsBlock_of_mentions permits continuingChild (whole l.continuing)
  have exits : inst.kind.exits = l.exits := by rw [kind]; rfl
  have phis := ensures_exitPhis_of_mentions reached exits permits [] (by simp)
  refine .after (gathers_initializerLabel fun block given => (permitsEnter block given).label) fun enter => ?_
  refine .after (gathers_labelId (permits _ (.child bodyChild (whole l.body)))) fun bodyLabel => ?_
  refine .after (gathers_labelId permitsBack.label) fun continuing => ?_
  have merged : Mentions m id inst (.merge id) := .merge (by rw [kind]; rfl)
  have headPhis : Ensures (emitIncomingPhis m l.body) fun _ L e => Lays m reached allowed L 0
      (fun keys => ∃ b, m.block l.body = .ok b ∧ keys = ↑(b.params.map Key.value))
      (IncomingPhis m L.state l.body) e :=
    ensures_headPhis bodyChild (fun _ => .inr ⟨l, kind, rfl⟩) permits
  suffices inner : ∀ header, Ensures _ fun _ L e => header ∈ L.loose →
        (Key.label l.continuing, continuing) ∈ L.state.bindings →
        (Key.label l.body, bodyLabel) ∈ L.state.bindings →
        Option.Rel (fun block word => (Key.label block, word) ∈ L.state.bindings) l.initializer enter →
        LaysInst m reached allowed under (described L) scopes id inst {header} L e from
    .taking inner fun header _ L e _ held one two three => (held one two three).taken
  intro header
  refine .after (gathers_mergeId (permits _ merged)) fun merge => ?_
  refine (ensures_enterLoop lowers _ header enter enterChild permitsEnter).bind fun _ => ?_
  refine (ensures_emit _ _).bind fun _ => headPhis.bind fun _ => ?_
  refine (ensures_emit _ _).bind fun _ => (ensures_emit _ _).bind fun _ => (ensures_emit _ _).bind fun _ => ?_
  refine (lowers.laid _ l.body bodyChild).bind fun _ => ?_
  refine (ensures_returnLoop lowers _ header continuing continuingChild permitsBack).bind fun _ => ?_
  refine (ensures_emit _ _).bind fun _ => phis.mono ?_
  rintro _ L e joins _ ⟨last, lastMade, rfl⟩ _ backLaid _ bodyLaid _ ⟨opening, openingMade, rfl⟩
    _ ⟨into, intoMade, rfl⟩ _ ⟨merging, mergingMade, rfl⟩ _ headJoins _ ⟨head, headMade, rfl⟩ _ enterLaid
    merges loose continuingBound bodyBound enterBound
  have tail := bodyLaid.append ((backLaid continuingBound).append ((lays_label lastMade merges rfl).append joins))
  have middle := (lays_only rfl rfl mergingMade).append ((lays_only rfl rfl intoMade).append
    ((lays_label openingMade bodyBound rfl).append tail))
  have whole := (enterLaid enterBound).append ((lays_header headMade).append (headJoins.append middle))
  simp only [add_zero, zero_add] at whole
  refine whole.mono ?_ ?_
  · rintro keys ⟨-, counted⟩
    obtain ⟨b, owns, rests, rest, own, back, found, enters, underEnter, underBody, returns, underBack, rfl⟩ :=
      counted.loop kind
    have ended : ∃ a c, a = {Key.merge id} ∧ c = ↑(inst.results.map Key.value) ∧
        ({Key.merge id} + ↑(inst.results.map Key.value) : Multiset Key) = a + c := ⟨_, _, rfl, rfl, rfl⟩
    exact ⟨_, _, ⟨owns, rests, enters, underEnter, rfl⟩, ⟨0, _, rfl, ⟨_, _, ⟨b, found, rfl⟩,
      ⟨0, _, rfl, ⟨0, _, rfl, ⟨_, _, rfl, ⟨rest, _, underBody, ⟨_, _, ⟨own, back, returns, underBack, rfl⟩,
        ended, rfl⟩, rfl⟩, rfl⟩, (zero_add _).symm⟩, (zero_add _).symm⟩, rfl⟩, (zero_add _).symm⟩, rfl⟩
  · rintro _ ⟨entry, _, enters, ⟨_, _, rfl, ⟨headPhis, _, headJoined, ⟨_, _, rfl, ⟨_, _, rfl,
      ⟨_, _, rfl, ⟨bodyCode, _, bodyHolds, ⟨back, _, returns, ⟨_, phis, rfl, joined, rfl⟩, rfl⟩, rfl⟩, rfl⟩,
      rfl⟩, rfl⟩, rfl⟩, rfl⟩, rfl⟩
    exact .loop kind merges loose bodyBound continuingBound enters headJoined bodyHolds returns joined

/-- The words that select a case, each with the label of the case. -/
theorem gathers_selectorOperands (id : InstId) (label : Word) (selectors : List Selector) :
    Gathers allowed (selectors.mapM (selectorOperands id label)) fun operands s =>
      ∃ words, selectedBy s.pool selectors = .ok words ∧
        operands.flatten = words.flatMap fun word => [.literal word, .id label] := by
  induction selectors with
  | nil => exact .pure fun _ => ⟨[], rfl, rfl⟩
  | cons selector rest ih =>
    rw [mapM_cons]
    cases selector with
    | otherwise =>
      simp only [selectorOperands, pure_bind]
      refine ih.bind fun operands => .pure fun s held => ?_
      obtain ⟨words, selected, same⟩ := held
      exact ⟨words, selected, by simpa using same⟩
    | value constant =>
      simp only [selectorOperands, bind_assoc]
      refine (gathers_askPool fun _ _ _ within found => within.word? found).bind fun word => ?_
      cases word with
      | none => exact .fail_bind _
      | some word =>
        simp only [pure_bind]
        refine ih.bind fun operands => .pure fun s held found => ?_
        obtain ⟨words, selected, same⟩ := held
        refine ⟨word :: words, ?_, by simp [same]⟩
        simp [selectedBy, found, selected]

theorem gathers_caseOperands (id : InstId) (case : Case) (fits : allowed (.label case.block)) :
    Gathers allowed (caseOperands id case) fun operands s => ∃ pairs, CaseTargets s case pairs ∧
      operands = pairs.flatMap fun pair => [.literal pair.1, .id pair.2] := by
  refine (gathers_labelId fits).bind fun label => ?_
  refine (gathers_selectorOperands id label case.selectors).bind fun operands => .pure ?_
  rintro s ⟨words, selected, same⟩ bound
  refine ⟨words.map (·, label), ⟨label, words, bound, selected, rfl⟩, ?_⟩
  rw [same, flatMap_map]

theorem classify_literalIdPairs (pairs : List (Word × Word)) (position : Nat) (even : position % 2 = 0) :
    Repetition.literalIdPairs.classify position (pairs.flatMap fun pair => [.literal pair.1, .id pair.2]) =
      pairs.flatMap fun pair => [.literal pair.1, .id pair.2] := by
  induction pairs generalizing position with
  | nil => rfl
  | cons pair rest ih =>
    have odd : (position + 1) % 2 = 1 := by omega
    have next : (position + 1 + 1) % 2 = 0 := by omega
    simp only [flatMap_cons, cons_append, nil_append, Repetition.classify, even, odd,
      Operand.classified, Operand.idWord?, ih _ next]
    rfl

theorem make_switch {selector otherwise : Word} {pairs : List (Word × Word)}
    (made : make .switch (.id selector :: .id otherwise ::
      pairs.flatMap fun pair => [.literal pair.1, .id pair.2]) = .ok only) :
    only = selectOn selector otherwise pairs := by
  rw [make_plain rfl rfl made]
  have classified : classify (some .literalIdPairs) []
      (pairs.flatMap fun pair => [.literal pair.1, .id pair.2]) =
        pairs.flatMap fun pair => [.literal pair.1, .id pair.2] := by
    refine Eq.trans ?_ (classify_literalIdPairs pairs 0 rfl)
    cases pairs <;> rfl
  unfold selectOn
  congr 1
  exact congrArg (fun rest => Operand.id selector :: Operand.id otherwise :: rest) classified

theorem InstKeys.switch (kind : inst.kind = .switch s) (counted : InstKeys m under id inst keys) :
    ∃ parts, Forall₂ (fun case => KeysWith (blockKeys m (Case.block case)) (under case.block)) s.cases parts ∧
      keys = parts.sum + ({.merge id} + ↑(inst.results.map Key.value)) := by
  obtain ⟨own, parts, found, each, rfl⟩ := counted
  obtain ⟨construct, held, rfl⟩ := ownKeys_eq_ok found
  simp only [constructKeys, kind] at held
  obtain ⟨owns, listed, same⟩ := bind_eq_ok.mp held
  cases same
  rw [kind, Kind.children, forall₂_map_left_iff] at each
  have split : ∀ {cases : List Case} {owns : List (List Key)} {parts : List (Multiset Key)},
      Forall₂ (fun case own => blockKeys m (Case.block case) = .ok own) cases owns →
      Forall₂ (fun case rest => under (Case.block case) rest) cases parts →
      ∃ both, Forall₂ (fun case => KeysWith (blockKeys m (Case.block case)) (under case.block)) cases both ∧
        both.sum = ↑owns.flatten + parts.sum := by
    intro cases owns parts counts
    induction counts generalizing parts with
    | nil =>
      intro below
      cases below
      exact ⟨[], .nil, rfl⟩
    | cons head _ ih =>
      intro below
      cases below with
      | cons first rest =>
        obtain ⟨both, holds, sum⟩ := ih rest
        refine ⟨_ :: both, .cons ⟨_, _, head, first, rfl⟩ holds, ?_⟩
        simp only [sum_cons, sum, flatten_cons, ← Multiset.coe_add]
        abel
  obtain ⟨both, holds, sum⟩ := split (mapM_eq_ok.mp listed) each
  refine ⟨both, holds, ?_⟩
  simp only [sum, cons_append, ← Multiset.cons_coe, ← Multiset.coe_add, ← Multiset.singleton_add]
  abel

theorem defaultBlock_eq_ok (found : defaultBlock id s = .ok block) :
    ∃ case ∈ s.cases, s.cases.filter Case.isDefault = [case] ∧ case.block = block := by
  unfold defaultBlock at found
  split at found
  · rename_i case only
    cases found
    have member : case ∈ s.cases.filter Case.isDefault := by simp [only]
    exact ⟨case, (mem_filter.mp member).1, only, rfl⟩
  · cases found
  · cases found

theorem ensures_switch (kind : inst.kind = .switch s)
    (lowers : Lowers m reached allowed body described under inst.kind.children)
    (permits : ∀ key, Mentions m id inst key → allowed key) (scopes : Scopes) :
    Ensures (emitSwitch m body scopes id inst s) fun _ L =>
      LaysInst m reached allowed under (described L) scopes id inst 0 L := by
  unfold emitSwitch
  have children : inst.kind.children = s.cases.map Case.block := by rw [kind]; rfl
  have whole (block : BlockId) : ¬Elided m inst block := not_elided (by simp [kind])
  have child : ∀ case ∈ s.cases, case.block ∈ inst.kind.children := by
    intro case member
    rw [children]
    exact mem_map_of_mem member
  have permitsCase : ∀ case ∈ s.cases, PermitsBlock m allowed case.block := fun case member =>
    permitsBlock_of_mentions permits (child case member) (whole case.block)
  have exits : inst.kind.exits = s.exits := by rw [kind]; rfl
  have phis := ensures_exitPhis_of_mentions reached exits permits [] (by simp)
  have laid := fun merge => Ensures.forM s.cases fun case member => ensures_block lowers
    { scopes with switchMerge := some merge } (child case member) (permitsCase case member)
  refine .check_next fun default defaults => ?_
  obtain ⟨case, member, -, rfl⟩ := defaultBlock_eq_ok defaults
  refine .after (gathers_labelId (permitsCase case member).label) fun otherwise => ?_
  refine .after (gathers_valueId m fun v same => permits _ (.operand ?_)) fun selector => ?_
  · simp [kind, Kind.operands, same]
  refine .after (Gathers.mapM s.cases fun case member =>
    gathers_caseOperands id case (permitsCase case member).label) fun operands => ?_
  refine .after (gathers_mergeId (permits _ (.merge (by rw [kind]; rfl)))) fun merge => ?_
  refine (ensures_emit _ _).bind fun _ => (ensures_emit _ _).bind fun _ => ?_
  refine (laid merge).bind fun _ => (ensures_emit _ _).bind fun _ => phis.mono ?_
  rintro _ L e joins _ ⟨last, lastMade, rfl⟩ _ each _ ⟨branch, branchMade, rfl⟩ _ ⟨first, firstMade, rfl⟩
    merges selected selects defaultBound
  obtain ⟨targets, cases, rfl⟩ := forall₂_map_of_exists selected
  have branchIs : branch = selectOn selector otherwise targets.flatten := by
    apply make_switch
    rw [← branchMade, ← flatMap_id, flatMap_assoc, flatMap_def]
    rfl
  have branches : Lays m reached allowed L 0 (· = 0) (· = [branch]) (.ofCode [branch]) :=
    lays_nothing (by rw [branchIs]; rfl)
  have whole := (lays_only rfl rfl firstMade).append (branches.append ((Lays.of_each each).append
    ((lays_label lastMade merges rfl).append joins)))
  refine whole.mono ?_ ?_
  · rintro keys ⟨-, counted⟩
    obtain ⟨parts, holds, rfl⟩ := counted.switch kind
    exact ⟨0, _, rfl, ⟨0, _, rfl, ⟨_, _, ⟨parts, holds, rfl⟩, ⟨_, _, rfl, rfl, rfl⟩, rfl⟩,
      (zero_add _).symm⟩, (zero_add _).symm⟩
  · rintro _ ⟨_, _, rfl, ⟨_, _, rfl, ⟨_, _, ⟨blocks, holds, rfl⟩, ⟨_, phis, rfl, joined, rfl⟩, rfl⟩, rfl⟩, rfl⟩
    rw [branchIs]
    exact .switch kind merges selects defaults defaultBound cases holds joined

end
end Shader.Lower
