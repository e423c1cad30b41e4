import Shader.Proofs.Lowering.Ids

/-!
What a lowering refers to it also defines.

An id is taken when something is first referred to, often long before it is defined. In a module whose
instructions only refer to what the module holds, every key that is referred to is counted, so no id is
left over.
-/
namespace Shader.Lower

open Binary List LowerState Shader.Module Instruction Kind

variable {m : Module} {keys : Multiset Key}
variable {block : BlockId} {b : Block} {id branch : InstId} {inst : Inst} {key : Key} {own : List Key} {value : ValueId}

/-- What an instruction defines is counted, wherever it is. -/
def Covers (m : Module) (keys : Multiset Key) : Prop :=
  ∀ id inst, m.Reached id → m.inst id = .ok inst → ∃ own, ownKeys m id inst = .ok own ∧ ∀ key ∈ own, key ∈ keys

/-- What is collected from an instruction of a block and from the blocks it owns is collected from the
block. -/
theorem collected_inst {depth : Nat} {list : List Key}
    (collected : m.collectWithin (definedIn m) depth block = .ok list) (found : m.block block = .ok b)
    (member : id ∈ b.insts) (held : m.inst id = .ok inst) :
    (∃ own, ownKeys m id inst = .ok own ∧ own ⊆ list) ∧ ∀ child ∈ inst.kind.children,
      ∃ depth below, m.collectWithin (definedIn m) depth child = .ok below ∧ below ⊆ list := by
  cases depth with
  | zero => cases collected
  | succ depth =>
    obtain ⟨_, defined, nested, same, visited, under, rfl⟩ := collectWithin_succ.mp collected
    cases found.symm.trans same
    obtain ⟨_, owns, same, owned, rfl⟩ := definedIn_eq_ok.mp visited
    cases found.symm.trans same
    constructor
    · obtain ⟨own, listed, defines⟩ := forall₂_mem_right owned.flip member
      have defines : (do ownKeys m id (← m.inst id)) = Except.ok own := defines
      rw [held] at defines
      exact ⟨own, defines, fun key inside =>
        mem_append_left _ (mem_flatten_of_mem listed inside)⟩
    · intro child owned
      obtain ⟨list, listed, _, lists, same, each, rfl⟩ := forall₂_mem_right under.flip member
      cases held.symm.trans same
      obtain ⟨below, inner, found⟩ := forall₂_mem_right each.flip owned
      exact ⟨depth, below, found, fun key inside => mem_append_right _
        (mem_flatten_of_mem listed (mem_flatten_of_mem inner inside))⟩

theorem function_lt {ref : FuncId} {function : Function} (declared : m.function ref = .ok function) :
    ref.index < m.functions.size := by
  unfold Module.function at declared
  split at declared
  · rename_i present
    exact (Array.getElem?_eq_some_iff.mp present).1
  · cases declared

theorem mem_sum {part : Multiset Key} {parts : List (Multiset Key)} (listed : part ∈ parts) (inside : key ∈ part) :
    key ∈ parts.sum := by
  obtain ⟨before, after, rfl⟩ := append_of_mem listed
  simp [inside]

/-- A function is counted with all that is under it. -/
theorem ModuleTotal.function (total : ModuleTotal m keys) {ref : FuncId} {function : Function}
    (declared : m.function ref = .ok function) :
    (∀ key ∈ functionKeys ref function, key ∈ keys) ∧ ∃ below,
      m.collectWithin (definedIn m) (m.blocks.size + 1) function.entry = .ok below ∧
      ∀ key ∈ below, key ∈ keys := by
  obtain ⟨root, parts, -, totals, rfl⟩ := total
  obtain ⟨part, listed, _, _, same, ⟨below, collected, rfl⟩, rfl⟩ :=
    forall₂_mem_right totals.flip (mem_range.mpr (function_lt declared))
  cases declared.symm.trans same
  have within : ∀ key ∈ Multiset.ofList (functionKeys ref function) + Multiset.ofList below,
      key ∈ root + parts.sum := fun key inside => Multiset.mem_add.mpr (.inr (mem_sum listed inside))
  exact ⟨fun key inside => within key (Multiset.mem_add.mpr (.inl inside)), below, collected,
    fun key inside => within key (Multiset.mem_add.mpr (.inr inside))⟩

/-- Everything under a function is collected with it. -/
theorem live_collected (owned : m.Owned) (total : ModuleTotal m keys) (live : m.Live block) :
    block = .root ∨ ∃ depth below,
      m.collectWithin (definedIn m) depth block = .ok below ∧ ∀ key ∈ below, key ∈ keys := by
  induction live with
  | root => exact .inl rfl
  | entry declared =>
    obtain ⟨-, below, collected, within⟩ := total.function declared
    exact .inr ⟨_, below, collected, within⟩
  | @child outer block b id inst live found member held owns ih =>
    right
    rcases ih with rfl | ⟨depth, list, collected, counted⟩
    · obtain ⟨declaration, kind⟩ := owned.declarations b id inst found member held
      rw [kind] at owns
      cases owns
    · obtain ⟨-, children⟩ := collected_inst collected found member held
      obtain ⟨depth, below, found, within⟩ := children block owns
      exact ⟨depth, below, found, fun key inside => counted key (within inside)⟩

theorem covers (owned : m.Owned) (total : ModuleTotal m keys) : Covers m keys := by
  rintro id inst ⟨block, b, live, found, member⟩ held
  rcases live_collected owned total live with rfl | ⟨depth, below, collected, within⟩
  · obtain ⟨declaration, kind⟩ := owned.declarations b id inst found member held
    obtain ⟨root, parts, ⟨_, insts, same, listed, rfl⟩, -, rfl⟩ := total
    cases found.symm.trans same
    obtain ⟨_, isListed, same⟩ := forall₂_mem_right (mapM_eq_ok.mp listed).flip member
    cases held.symm.trans same
    refine ⟨inst.results.map .value, by simp only [ownKeys, constructKeys, kind]; rfl, fun key inside => ?_⟩
    exact Multiset.mem_add.mpr (.inl (mem_flatMap.mpr ⟨inst, isListed, inside⟩))
  · obtain ⟨⟨own, defines, inside⟩, -⟩ := collected_inst collected found member held
    exact ⟨own, defines, fun key listed => within key (inside listed)⟩

theorem mem_blockKeys (found : blockKeys m block = .ok own) :
    .label block ∈ own ∧ ∀ b value, m.block block = .ok b → b.insts ≠ [] → value ∈ b.params → .value value ∈ own := by
  obtain ⟨b, held, same⟩ := bind_eq_ok.mp found
  cases same
  refine ⟨mem_cons_self, fun b' value held' inhabited param => ?_⟩
  cases held.symm.trans held'
  rw [if_neg (by simpa using inhabited)]
  exact mem_cons_of_mem _ (mem_map_of_mem param)

theorem blockKeys_of_branchKeys {c : Conditional} (kind : inst.kind = .conditional c)
    (found : branchKeys m inst block = .ok own) (laid : ¬Elided m inst block) : blockKeys m block = .ok own := by
  obtain ⟨need, needs, rest⟩ := bind_eq_ok.mp found
  cases need with
  | true => exact rest
  | false => exact absurd ⟨c, kind, needs⟩ laid

/-- The keys of a block that is laid out. -/
def HasHead (m : Module) (inst : Inst) (block : BlockId) (keys : List Key) : Prop :=
  .label block ∈ keys ∧ ∀ b value, m.block block = .ok b → Joined m inst block b → value ∈ b.params →
    .value value ∈ keys

theorem hasHead_of_blockKeys {keys : List Key} (found : blockKeys m block = .ok own) (within : own ⊆ keys)
    (other : ∀ l, inst.kind = .loop l → l.body ≠ block) : HasHead m inst block keys := by
  obtain ⟨label, params⟩ := mem_blockKeys found
  refine ⟨within label, fun b value held joined param => within (params b value held ?_ param)⟩
  exact joined.elim And.left fun ⟨l, kind, same⟩ => absurd same (other l kind)

/-- The keys of a block that is laid out stand in those of its owner. -/
theorem hasHead_of_constructKeys {keys : List Key} (found : constructKeys m id inst = .ok keys)
    (member : block ∈ inst.kind.children) (laid : ¬Elided m inst block) : HasHead m inst block keys := by
  cases kind : inst.kind with
  | conditional c =>
    simp only [constructKeys, kind] at found
    obtain ⟨lists, listed, same⟩ := bind_eq_ok.mp found
    cases same
    rw [kind] at member
    obtain ⟨own, isListed, ownFound⟩ := forall₂_mem_right (mapM_eq_ok.mp listed).flip member
    refine hasHead_of_blockKeys (blockKeys_of_branchKeys kind ownFound laid) ?_ ?_
    · exact fun key inside => mem_cons_of_mem _ (mem_flatten_of_mem isListed inside)
    · intro l other
      cases kind.symm.trans other
  | loop l =>
    simp only [constructKeys, kind] at found
    obtain ⟨b, body, rest⟩ := bind_eq_ok.mp found
    obtain ⟨lists, listed, same⟩ := bind_eq_ok.mp rest
    cases same
    by_cases isBody : block = l.body
    · subst isBody
      refine ⟨by simp, fun b' value held _ param => ?_⟩
      cases body.symm.trans held
      simp [param]
    · have isOther : block ∈ l.initializer.toList ++ [l.continuing] := by
        rw [kind] at member
        simp only [children, mem_append, mem_cons, not_mem_nil, or_false] at member ⊢
        exact member.imp_right (Or.resolve_left · isBody)
      obtain ⟨own, isListed, ownFound⟩ := forall₂_mem_right (mapM_eq_ok.mp listed).flip isOther
      refine hasHead_of_blockKeys ownFound (fun key inside => ?_) fun l' other same => ?_
      · exact mem_cons_of_mem _ (mem_cons_of_mem _
          (mem_append_right _ (mem_flatten_of_mem isListed inside)))
      · cases kind.symm.trans other
        exact isBody same.symm
  | switch s =>
    simp only [constructKeys, kind] at found
    obtain ⟨lists, listed, same⟩ := bind_eq_ok.mp found
    cases same
    rw [kind] at member
    obtain ⟨case, isCase, rfl⟩ := mem_map.mp member
    obtain ⟨own, isListed, ownFound⟩ := forall₂_mem_right (mapM_eq_ok.mp listed).flip isCase
    refine hasHead_of_blockKeys ownFound ?_ ?_
    · exact fun key inside => mem_cons_of_mem _ (mem_flatten_of_mem isListed inside)
    · intro l other
      cases kind.symm.trans other
  | _ =>
    rw [kind] at member
    cases member

theorem merge_mem_constructKeys {keys : List Key} (found : constructKeys m id inst = .ok keys)
    (control : inst.kind.isControl = true) : .merge id ∈ keys := by
  cases kind : inst.kind with
  | loop l =>
    simp only [constructKeys, kind] at found
    obtain ⟨b, -, rest⟩ := bind_eq_ok.mp found
    obtain ⟨lists, -, same⟩ := bind_eq_ok.mp rest
    cases same
    exact mem_cons_self
  | conditional | switch =>
    simp only [constructKeys, kind] at found
    obtain ⟨lists, -, same⟩ := bind_eq_ok.mp found
    cases same
    exact mem_cons_self
  | _ =>
    rw [kind] at control
    cases control

namespace Covers

variable {id : InstId} {inst : Inst} (covers : Covers m keys) (reached : m.Reached id) (held : m.inst id = .ok inst)
include covers reached held

theorem construct : (∃ own, constructKeys m id inst = .ok own ∧ ∀ key ∈ own, key ∈ keys) ∧
      ∀ value ∈ inst.results, Key.value value ∈ keys := by
  obtain ⟨_, found, inside⟩ := covers id inst reached held
  obtain ⟨own, foundOwn, rfl⟩ := ownKeys_eq_ok found
  exact ⟨⟨own, foundOwn, fun key member => inside key (mem_append_left _ member)⟩,
    fun value member => inside _ (mem_append_right _ (mem_map_of_mem member))⟩

theorem result (member : value ∈ inst.results) : .value value ∈ keys :=
  (covers.construct reached held).2 value member

theorem merge (control : inst.kind.isControl = true) : .merge id ∈ keys := by
  obtain ⟨⟨own, found, inside⟩, -⟩ := covers.construct reached held
  exact inside _ (merge_mem_constructKeys found control)

theorem label (member : block ∈ inst.kind.children) (laid : ¬Elided m inst block) : .label block ∈ keys := by
  obtain ⟨⟨own, found, inside⟩, -⟩ := covers.construct reached held
  exact inside _ (hasHead_of_constructKeys found member laid).1

theorem param (member : block ∈ inst.kind.children) (found : m.block block = .ok b) (joined : Joined m inst block b)
    (isParam : value ∈ b.params) : .value value ∈ keys := by
  have laid : ¬Elided m inst block := by
    rintro ⟨c, kind, needs⟩
    rcases joined with ⟨-, laid⟩ | ⟨l, other, -⟩
    · exact laid ⟨c, kind, needs⟩
    · cases kind.symm.trans other
  obtain ⟨⟨own, foundOwn, inside⟩, -⟩ := covers.construct reached held
  exact inside _ ((hasHead_of_constructKeys foundOwn member laid).2 b value found joined isParam)

end Covers

theorem lastControl?_eq_some {insts : List InstId} (last : lastControl? m insts = .ok (some id)) :
    id ∈ insts ∧ ∃ inst, m.inst id = .ok inst ∧ inst.kind.isControl = true := by
  induction insts with
  | nil => cases last
  | cons first rest ih =>
    obtain ⟨found, later, here⟩ := bind_eq_ok.mp last
    cases found with
    | some found =>
      cases here
      obtain ⟨member, control⟩ := ih later
      exact ⟨mem_cons_of_mem _ member, control⟩
    | none =>
      obtain ⟨inst, held, same⟩ := bind_eq_ok.mp here
      by_cases control : inst.kind.isControl = true
      · rw [if_pos control] at same
        cases same
        exact ⟨mem_cons_self, inst, held, control⟩
      · rw [if_neg control] at same
        cases same

theorem before?_subset {insts earlier : List InstId} (found : before? insts id = some earlier) : earlier ⊆ insts := by
  unfold before? at found
  split at found
  · cases found
    exact takeWhile_subset _
  · cases found

/-- Control leaves from the merge block of a construct of the same block or from the block itself. -/
theorem leavingKey_cases (leaves : leavingKey m branch = .ok key) :
    ∃ inst b, m.inst branch = .ok inst ∧ m.block inst.block = .ok b ∧ (key = .label inst.block ∨
      ∃ construct other, key = .merge construct ∧ construct ∈ b.insts ∧ m.inst construct = .ok other ∧
        other.kind.isControl = true) := by
  obtain ⟨inst, b, earlier, last, held, found, before, isLast, rfl⟩ := leavingKey_eq_ok leaves
  refine ⟨inst, b, held, found, ?_⟩
  cases last with
  | none => exact .inl rfl
  | some construct =>
    obtain ⟨member, other, present, control⟩ := lastControl?_eq_some isLast
    exact .inr ⟨construct, other, rfl, before?_subset before member, present, control⟩

/-- The label that a branch leaves from is counted if the block of the branch is laid out. -/
theorem leaving_mem (owned : m.Owned) (total : ModuleTotal m keys) (reached : m.Reached branch)
    (held : m.inst branch = .ok inst) (branches : ∀ d, inst.kind ≠ .var d)
    (laid : ∀ owner other, m.Reached owner → m.inst owner = .ok other → inst.block ∈ other.kind.children →
      ¬Elided m other inst.block) (leaves : leavingKey m branch = .ok key) : key ∈ keys := by
  obtain ⟨block, b, live, found, member⟩ := reached
  have here := owned.placed block b branch inst live found member held
  obtain ⟨_, _, held', found', which⟩ := leavingKey_cases leaves
  cases held.symm.trans held'
  rw [here] at found'
  cases found.symm.trans found'
  rcases which with rfl | ⟨construct, other, rfl, inside, present, control⟩
  · rw [here] at laid ⊢
    cases live with
    | root =>
      obtain ⟨d, kind⟩ := owned.declarations b branch inst found member held
      exact absurd kind (branches d)
    | entry declared => exact (total.function declared).1 _ (by simp [functionKeys])
    | @child outer _ _ owner other live outerFound inner ownerHeld owns =>
      have reached : m.Reached owner := ⟨outer, _, live, outerFound, inner⟩
      exact (covers owned total).label reached ownerHeld owns (laid owner other reached ownerHeld owns)
  · exact (covers owned total).merge ⟨block, b, live, found, inside⟩ present control

/-- A value that the module defines where a lowering gets to: a parameter of a function or of a loop, or
the result of an instruction. -/
inductive Defines (m : Module) : ValueId → Prop where
  | functionParam {ref : FuncId} {function : Function} {value : ValueId}
      (declared : m.function ref = .ok function) (member : value ∈ function.params) : Defines m value
  | result {id : InstId} {inst : Inst} {value : ValueId} (reached : m.Reached id)
      (held : m.inst id = .ok inst) (member : value ∈ inst.results) : Defines m value
  | bodyParam {id : InstId} {inst : Inst} {l : Loop} {b : Block} {value : ValueId} (reached : m.Reached id)
      (held : m.inst id = .ok inst) (kind : inst.kind = .loop l) (found : m.block l.body = .ok b)
      (member : value ∈ b.params) : Defines m value
  | continuingParam {id : InstId} {inst : Inst} {l : Loop} {b : Block} {value : ValueId}
      (reached : m.Reached id) (held : m.inst id = .ok inst) (kind : inst.kind = .loop l)
      (found : m.block l.continuing = .ok b) (member : value ∈ b.params) : Defines m value

/-- Instructions refer to what the module holds: operands are defined, calls and branches have targets,
and the branches that a construct or a block lists are there. -/
structure Grounded (m : Module) : Prop where
  operands : ∀ id inst value, m.Reached id → m.inst id = .ok inst → .ssa value ∈ inst.kind.operands → Defines m value
  calls : ∀ id inst target args, m.Reached id → m.inst id = .ok inst → inst.kind = .call target args →
    target.index < m.functions.size
  continues : ∀ id inst target args, m.Reached id → m.inst id = .ok inst →
    inst.kind = .continueTo target args → m.Reached target
  exits : ∀ id inst exit, m.Reached id → m.inst id = .ok inst → exit ∈ inst.kind.exits → m.Reached exit
  inbound : ∀ id inst block b branch, m.Reached id → m.inst id = .ok inst → block ∈ inst.kind.children →
    m.block block = .ok b → branch ∈ b.inbound → m.Reached branch

/-- Nothing refers to what has no place in the lowered code: a parameter of a continuing block is an
operand only if the block has instructions, and the exits of a construct with results are not in a branch of a
conditional that is left out. -/
structure Visible (m : Module) : Prop where
  params : ∀ id inst value outer loop l b, m.Reached id → m.inst id = .ok inst →
    .ssa value ∈ inst.kind.operands → m.Reached outer → m.inst outer = .ok loop → loop.kind = .loop l →
    m.block l.continuing = .ok b → value ∈ b.params → b.insts ≠ []
  exits : ∀ id inst exit branch owner other, m.Reached id → m.inst id = .ok inst → inst.results ≠ [] →
    exit ∈ inst.kind.exits → m.inst exit = .ok branch → m.Reached owner → m.inst owner = .ok other →
    branch.block ∈ other.kind.children → ¬Elided m other branch.block

/-- What is in a branch of a conditional that is not laid out can only leave the conditional. -/
theorem exitIf_of_elided (fits : Fits m m.Reached) {owner : InstId} {other : Inst} (reached : m.Reached owner)
    (ownerHeld : m.inst owner = .ok other) (owns : block ∈ other.kind.children) (elided : Elided m other block)
    (found : m.block block = .ok b) (member : branch ∈ b.insts) (held : m.inst branch = .ok inst) :
    ∃ target args, inst.kind = .exitIf target args := by
  obtain ⟨c, kind, needs⟩ := elided
  obtain ⟨-, _, same, short, ends⟩ := needsBlock_eq_false needs
  cases found.symm.trans same
  obtain ⟨last, terminator⟩ := fits.ended owner other block b reached ownerHeld owns found (ne_nil_of_mem member)
  obtain ⟨_, _, same, isLast, lastHeld, -⟩ := terminator?_eq_some terminator
  cases found.symm.trans same
  have only : branch = last := by
    obtain ⟨sole, single⟩ : ∃ sole, b.insts = [sole] := by
      match insts : b.insts, short with
      | [], _ => rw [insts] at member; cases member
      | [sole], _ => exact ⟨sole, rfl⟩
    rw [single] at member isLast
    cases isLast
    exact mem_singleton.mp member
  subst only
  obtain ⟨_, target, args, same, isExit⟩ := ends branch terminator
  cases held.symm.trans same
  exact ⟨target, args, isExit⟩

theorem branchArgs_subset (kind : Kind) : kind.branchArgs ⊆ kind.operands := by
  cases kind <;> simp [Kind.branchArgs, Kind.operands]

theorem exitArgs_subset (kind : Kind) : kind.exitArgs ⊆ kind.operands := by
  cases kind <;> simp [Kind.exitArgs, Kind.operands]

theorem loop_not_elided {l : Loop} (kind : inst.kind = .loop l) : ¬Elided m inst block := by
  rintro ⟨c, other, -⟩
  cases kind.symm.trans other

section
variable (owned : m.Owned) (fits : Fits m m.Reached) (grounded : Grounded m) (visible : Visible m)
  (total : ModuleTotal m keys)
include owned grounded visible total

theorem operand_mem (reached : m.Reached id) (held : m.inst id = .ok inst) (operand : .ssa value ∈ inst.kind.operands) :
    .value value ∈ keys := by
  have covered := covers owned total
  cases grounded.operands id inst value reached held operand with
  | functionParam declared member =>
    exact (total.function declared).1 _ (by simp [functionKeys, member])
  | result reached held member => exact covered.result reached held member
  | @bodyParam outer loop l b _ outerReached outerHeld kind found member =>
    exact covered.param outerReached outerHeld (by simp [kind, children]) found (.inr ⟨l, kind, rfl⟩) member
  | @continuingParam outer loop l b _ outerReached outerHeld kind found member =>
    have inhabited := visible.params id inst value outer loop l b reached held operand outerReached outerHeld
      kind found member
    exact covered.param outerReached outerHeld (by simp [kind, children]) found
      (.inl ⟨inhabited, loop_not_elided kind⟩) member

include fits

/-- What the lowering of an instruction refers to is counted. -/
theorem mentioned_mem (reached : m.Reached id) (held : m.inst id = .ok inst) (mentions : Mentions m id inst key) :
    key ∈ keys := by
  have covered := covers owned total
  have operand : ∀ {id inst value}, m.Reached id → m.inst id = .ok inst → .ssa value ∈ inst.kind.operands →
      .value value ∈ keys := fun reached held member =>
    operand_mem owned grounded visible total reached held member
  cases mentions with
  | operand member => exact operand reached held member
  | result member => exact covered.result reached held member
  | @callee target args kind =>
    have bound := grounded.calls id inst target args reached held kind
    have declared : m.function target = .ok m.functions[target.index] := by simp [Module.function, bound]
    exact (total.function declared).1 _ mem_cons_self
  | merge control => exact covered.merge reached held control
  | child member laid => exact covered.label reached held member laid
  | continuing kind found loop =>
    have target := grounded.continues id inst _ _ reached held kind
    exact covered.label target found (by simp [loop, children]) (loop_not_elided loop)
  | param member found joined isParam => exact covered.param reached held member found joined isParam
  | inboundArg member found joined params listed source arg =>
    exact operand (grounded.inbound id inst _ _ _ reached held member found listed) source (branchArgs_subset _ arg)
  | exitArg results listed source arg =>
    exact operand (grounded.exits id inst _ reached held listed) source (exitArgs_subset _ arg)
  | @inboundLabel block b branch _ member found joined params listed leaves =>
    obtain ⟨source, sourceHeld, carries, leaves⟩ := leaves
    have branchReached := grounded.inbound id inst _ _ _ reached held member found listed
    refine leaving_mem owned total branchReached sourceHeld ?_ ?_ leaves
    · intro d kind
      simp [kind, branchArgs] at carries
    · intro owner other ownerReached ownerHeld owns elided
      obtain ⟨place, b', live, placeFound, inside⟩ := branchReached
      rw [owned.placed place b' branch source live placeFound inside sourceHeld] at owns elided
      obtain ⟨target, args, kind⟩ :=
        exitIf_of_elided fits ownerReached ownerHeld owns elided placeFound inside sourceHeld
      simp [kind, branchArgs] at carries
  | @exitLabel branch _ results listed leaves =>
    obtain ⟨source, sourceHeld, carries, leaves⟩ := leaves
    have branchReached := grounded.exits id inst _ reached held listed
    refine leaving_mem owned total branchReached sourceHeld ?_ ?_ leaves
    · intro d kind
      simp [kind, exitArgs] at carries
    · intro owner other ownerReached ownerHeld owns
      exact visible.exits id inst branch source owner other reached held results listed sourceHeld ownerReached
        ownerHeld owns
  | @onward block b parent owner member found empty owns ownerHeld results =>
    cases owns.symm.trans (owned.parented id inst block b reached held member found)
    refine covered.merge reached held ?_
    cases kind : inst.kind <;> rw [kind] at member <;> first | rfl | cases member

theorem referred_mem (referred : Referred m key) : key ∈ keys := by
  cases referred with
  | mentioned reached held mentions => exact mentioned_mem owned fits grounded visible total reached held mentions
  | function declared => exact (total.function declared).1 _ mem_cons_self
  | param declared member => exact (total.function declared).1 _ (by simp [functionKeys, member])
  | entry declared => exact (total.function declared).1 _ (by simp [functionKeys])

end

theorem generate_eq_ok {options : Options} {lowered : Lowered} (generated : m.generate options = .ok lowered) :
    ∃ state insts, Ran m options state ∧ lowered.assembly = state.out ∧ state.out.instructions = .ok insts ∧
      lowered.words = state.out.header ++ insts.flatMap words := by
  obtain ⟨assembly, found, rest⟩ := bind_eq_ok.mp generated
  obtain ⟨⟨⟨⟩, state⟩, ran, same⟩ := bind_eq_ok.mp found
  cases same
  cases assembled : state.out.assemble with
  | error fault =>
    rw [assembled] at rest
    cases rest
  | ok words =>
    rw [assembled] at rest
    cases rest
    obtain ⟨insts, listed, same⟩ := bind_eq_ok.mp assembled
    cases same
    exact ⟨state, insts, ran, rfl, listed, rfl⟩

/-- The instructions of a lowered module define the numbers from one up to the bound in its header, each
once. -/
theorem results_unique_and_dense {options : Options} {lowered : Lowered} (owned : m.Owned)
    (fits : Fits m m.Reached) (grounded : Grounded m) (visible : Visible m)
    (generated : m.generate options = .ok lowered) :
    ∃ insts, lowered.assembly.instructions = .ok insts ∧
      lowered.words = lowered.assembly.header ++ insts.flatMap words ∧
      (insts.filterMap result).Nodup ∧
      ∀ id, id ∈ insts.filterMap result ↔ 1 ≤ id.toNat ∧ id.toNat < lowered.assembly.idBound.toNat := by
  obtain ⟨state, insts, ran, isOut, listed, words⟩ := generate_eq_ok generated
  obtain ⟨e, lowering⟩ := lowering_of_run ran
  obtain ⟨parts, held, once⟩ := owned.once
  obtain ⟨keys, total, keysOnce⟩ := moduleTotal_nodup held once
  have all : ∀ entry ∈ e.keyed, entry.1 ∈ keys := fun entry member =>
    referred_mem owned fits grounded visible total ((lowering.builds.accounts keys ⟨fits, total⟩).keyed entry member)
  have same : Multiset.ofList (insts.filterMap result) = ↑(e.taken.map Prod.snd) :=
    (lowering.results_instructions listed).trans (lowering.results_taken fits total keysOnce all)
  rw [isOut]
  refine ⟨insts, listed, words, ?_, fun id => ?_⟩
  · rw [← Multiset.coe_nodup, same]
    exact lowering.taken_nodup
  · rw [← Multiset.mem_coe, same, Multiset.mem_coe, lowering.mem_taken]
    rfl

theorem fits_of_tables (shaped : ∀ index < m.insts.size, ∀ inst ∈ m.insts[index]?, inst.Shaped)
    (ended : ∀ index < m.insts.size, ∀ inst ∈ m.insts[index]?, ∀ block ∈ inst.kind.children,
      isEmptyBlock m block = true ∨ (m.terminator? block).toOption.join.isSome = true) :
    Fits m m.Reached where
  shaped id inst _ held := forall_inst (P := fun _ inst => inst.Shaped) shaped held
  ended id inst block b _ held owned found inhabited := by
    have ended := forall_inst (P := fun _ inst => ∀ block ∈ inst.kind.children,
      isEmptyBlock m block = true ∨ (m.terminator? block).toOption.join.isSome = true) ended held block owned
    have full : isEmptyBlock m block ≠ true := by simpa [isEmptyBlock, found] using inhabited
    obtain ⟨last, ends⟩ := Option.isSome_iff_exists.mp (ended.resolve_left full)
    exact ⟨last, ok_of_mem_toOption (Option.join_eq_some_iff.mp ends)⟩

/-- The functions that an instruction calls. -/
def calledBy : Kind → List FuncId
  | .call target _ => [target]
  | _ => []

/-- The instruction that a `continueTo` goes to. -/
def continuedBy : Kind → List InstId
  | .continueTo target _ => [target]
  | _ => []

/-- The branches that a construct and its blocks list. -/
def listedBy (m : Module) (inst : Inst) : List InstId :=
  inst.kind.exits ++ inst.kind.children.flatMap fun block => (m.blocks[block.index]?.map Block.inbound).getD []

theorem grounded_of_tables (reached : ∀ {id : InstId}, id.index < m.insts.size → m.Reached id)
    (defined : ∀ index < m.values.size, Defines m ⟨index⟩)
    (operands : ∀ index < m.insts.size, ∀ inst ∈ m.insts[index]?, ∀ operand ∈ inst.kind.operands,
      ∀ value ∈ operand.ssa?, value.index < m.values.size)
    (called : ∀ index < m.insts.size, ∀ inst ∈ m.insts[index]?, ∀ target ∈ calledBy inst.kind,
      target.index < m.functions.size)
    (named : ∀ index < m.insts.size, ∀ inst ∈ m.insts[index]?,
      ∀ other ∈ continuedBy inst.kind ++ listedBy m inst, other.index < m.insts.size) : Grounded m := by
  have refers : ∀ {id inst other}, m.inst id = .ok inst → other ∈ continuedBy inst.kind ++ listedBy m inst →
      m.Reached other := by
    intro id inst other held member
    exact reached (forall_inst (P := fun _ inst => ∀ other ∈ continuedBy inst.kind ++ listedBy m inst,
      other.index < m.insts.size) named held other member)
  refine ⟨?_, ?_, ?_, ?_, ?_⟩
  · intro id inst value _ held member
    exact defined value.index (forall_inst (P := fun _ inst => ∀ operand ∈ inst.kind.operands,
      ∀ value ∈ operand.ssa?, value.index < m.values.size) operands held _ member value rfl)
  · intro id inst target args _ held kind
    exact forall_inst (P := fun _ inst => ∀ target ∈ calledBy inst.kind, target.index < m.functions.size)
      called held target (by rw [kind]; exact mem_singleton_self target)
  · intro id inst target args _ held kind
    exact refers held (by rw [kind]; exact mem_cons_self)
  · intro id inst exit _ held listed
    exact refers held (mem_append_right _ (mem_append_left _ listed))
  · intro id inst block b branch _ held owned blockFound listed
    refine refers held (mem_append_right _ (mem_append_right _ (mem_flatMap.mpr ⟨block, owned, ?_⟩)))
    rw [block_eq_ok.mp blockFound]
    exact listed

/-- A function that counts up to its parameter. Its loop has parameters and a result, and the conditional
in the loop has a branch without a block of its own. -/
def counting : Module where
  constants := ⟨#[.scalar (.u32 0), .scalar (.u32 1)]⟩
  values := #[⟨.u32, none, .functionParam ⟨0⟩⟩, ⟨.u32, none, .blockParam ⟨3⟩⟩, ⟨.u32, none, .blockParam ⟨4⟩⟩,
    ⟨.u32, none, .result ⟨0⟩⟩, ⟨.bool, none, .result ⟨3⟩⟩, ⟨.u32, none, .result ⟨8⟩⟩]
  insts := #[ ⟨.loop ⟨some ⟨2⟩, ⟨3⟩, ⟨4⟩, [⟨7⟩]⟩, [⟨3⟩], ⟨1⟩⟩, ⟨.ret (some (.ssa ⟨3⟩)), [], ⟨1⟩⟩,
    ⟨.nextIteration ⟨0⟩ [.constant ⟨0⟩], [], ⟨2⟩⟩,
    ⟨.binary .lessThan (.ssa ⟨1⟩) (.ssa ⟨0⟩), [⟨4⟩], ⟨3⟩⟩,
    ⟨.conditional ⟨.ssa ⟨4⟩, ⟨5⟩, ⟨6⟩, [⟨6⟩]⟩, [], ⟨3⟩⟩,
    ⟨.continueTo ⟨0⟩ [.ssa ⟨1⟩], [], ⟨3⟩⟩,
    ⟨.exitIf ⟨4⟩ [], [], ⟨5⟩⟩,
    ⟨.exitLoop ⟨0⟩ [.ssa ⟨1⟩], [], ⟨6⟩⟩,
    ⟨.binary .add (.ssa ⟨2⟩) (.constant ⟨1⟩), [⟨5⟩], ⟨4⟩⟩,
    ⟨.nextIteration ⟨0⟩ [.ssa ⟨5⟩], [], ⟨4⟩⟩]
  blocks := #[ {}, { insts := [⟨0⟩, ⟨1⟩] }, { insts := [⟨2⟩], parent := some ⟨0⟩ },
    { insts := [⟨3⟩, ⟨4⟩, ⟨5⟩], params := [⟨1⟩], parent := some ⟨0⟩, inbound := [⟨2⟩, ⟨9⟩] },
    { insts := [⟨8⟩, ⟨9⟩], params := [⟨2⟩], parent := some ⟨0⟩, inbound := [⟨5⟩] },
    { insts := [⟨6⟩], parent := some ⟨4⟩ },
    { insts := [⟨7⟩], parent := some ⟨4⟩ }]
  functions := #[⟨"count", [⟨0⟩], .u32, .none, none, ⟨1⟩⟩]

theorem counting_reached (bound : id.index < counting.insts.size) : counting.Reached id :=
  reached_of_tables (by decide) bound

theorem counting_owned : counting.Owned :=
  owned_of_tables (by decide +kernel) (by decide) (by decide) (by decide)

theorem counting_fits : Fits counting counting.Reached := fits_of_tables (by decide) (by decide)

theorem counting_grounded : Grounded counting := by
  refine grounded_of_tables counting_reached ?_ (by decide) (by decide) (by decide)
  have loop := counting_reached (show (⟨0⟩ : InstId).index < 10 by decide)
  intro index bound
  match index, bound with
  | 0, _ => exact .functionParam (show counting.function ⟨0⟩ = .ok _ from rfl) (by decide)
  | 1, _ => exact .bodyParam loop rfl rfl rfl (by decide)
  | 2, _ => exact .continuingParam loop rfl rfl rfl (by decide)
  | 3, _ => exact .result loop rfl (by decide)
  | 4, _ => exact .result (counting_reached (show (⟨3⟩ : InstId).index < 10 by decide)) rfl (by decide)
  | 5, _ => exact .result (counting_reached (show (⟨8⟩ : InstId).index < 10 by decide)) rfl (by decide)

theorem counting_visible : Visible counting where
  params id inst value outer loop l b _ held operand _ outerHeld kind found _ := by
    have full := forall_block (P := fun block b => b.insts = [] → block = ⟨0⟩) (by decide) found
    intro empty
    have none := forall_inst (P := fun _ inst => ⟨0⟩ ∉ inst.kind.children) (by decide) outerHeld
    rw [kind] at none
    exact none (by simp [children, full empty])
  exits id inst exit branch owner other _ held results listed branchHeld _ _ _ := by
    have lists := forall_inst (P := fun _ inst => inst.results ≠ [] → ∀ exit ∈ inst.kind.exits, exit = ⟨7⟩)
      (by decide) held results exit listed
    subst lists
    cases branchHeld
    rintro ⟨c, -, needs⟩
    have laid : ∀ joins, needsBlock counting joins ⟨6⟩ = .ok true := by decide
    cases needs.symm.trans (laid _)

theorem counting_results : counting.Owned ∧ Fits counting counting.Reached ∧ Grounded counting ∧
    Visible counting ∧ ∃ lowered, counting.generate {} = .ok lowered ∧
    ∃ insts, lowered.assembly.instructions = .ok insts ∧
      lowered.words = lowered.assembly.header ++ insts.flatMap words ∧
      (insts.filterMap result).Nodup ∧
      ∀ id, id ∈ insts.filterMap result ↔ 1 ≤ id.toNat ∧ id.toNat < lowered.assembly.idBound.toNat := by
  obtain ⟨lowered, generated⟩ : ∃ lowered, counting.generate {} = .ok lowered := by decide +kernel
  exact ⟨counting_owned, counting_fits, counting_grounded, counting_visible, lowered, generated,
    results_unique_and_dense counting_owned counting_fits counting_grounded counting_visible generated⟩

/-- A loop whose continuing block is empty but has a parameter, which the body uses. -/
def unvisited : Module where
  values := #[⟨.u32, none, .blockParam ⟨3⟩⟩, ⟨.u32, none, .result ⟨1⟩⟩]
  insts := #[ ⟨.loop ⟨none, ⟨2⟩, ⟨3⟩, [⟨2⟩]⟩, [], ⟨1⟩⟩, ⟨.unary .complement (.ssa ⟨0⟩), [⟨1⟩], ⟨2⟩⟩,
    ⟨.exitLoop ⟨0⟩ [], [], ⟨2⟩⟩,
    ⟨.ret none, [], ⟨1⟩⟩]
  blocks := #[ {}, { insts := [⟨0⟩, ⟨3⟩] }, { insts := [⟨1⟩, ⟨2⟩], parent := some ⟨0⟩ },
    { params := [⟨0⟩], parent := some ⟨0⟩ }]
  functions := #[⟨"f", [], .void, .none, none, ⟨1⟩⟩]

/-- A conditional that lists a branch which stands alone in a branch of another conditional. -/
def stray : Module where
  constants := ⟨#[.scalar (.bool true), .scalar (.u32 1)]⟩
  values := #[⟨.u32, none, .result ⟨0⟩⟩]
  insts := #[ ⟨.conditional ⟨.constant ⟨0⟩, ⟨2⟩, ⟨3⟩, [⟨3⟩, ⟨4⟩, ⟨5⟩]⟩, [⟨0⟩], ⟨1⟩⟩, ⟨.ret none, [], ⟨1⟩⟩,
    ⟨.conditional ⟨.constant ⟨0⟩, ⟨4⟩, ⟨5⟩, [⟨6⟩]⟩, [], ⟨2⟩⟩,
    ⟨.exitIf ⟨0⟩ [.constant ⟨1⟩], [], ⟨2⟩⟩,
    ⟨.exitIf ⟨0⟩ [.constant ⟨1⟩], [], ⟨3⟩⟩,
    ⟨.exitIf ⟨0⟩ [.constant ⟨1⟩], [], ⟨4⟩⟩,
    ⟨.exitIf ⟨2⟩ [], [], ⟨5⟩⟩]
  blocks := #[ {}, { insts := [⟨0⟩, ⟨1⟩] }, { insts := [⟨2⟩, ⟨3⟩], parent := some ⟨0⟩ },
    { insts := [⟨4⟩], parent := some ⟨0⟩ },
    { insts := [⟨5⟩], parent := some ⟨2⟩ },
    { insts := [⟨6⟩], parent := some ⟨2⟩ }]
  functions := #[⟨"f", [], .void, .none, none, ⟨1⟩⟩]

/-- Some id below the bound is defined by no instruction of the lowered module. -/
def LeavesGap (m : Module) : Prop :=
  ∃ lowered insts, m.generate {} = .ok lowered ∧ lowered.assembly.instructions = .ok insts ∧
    ∃ id : Word, 1 ≤ id.toNat ∧ id.toNat < lowered.assembly.idBound.toNat ∧ id ∉ insts.filterMap result

theorem leavesGap_of_lowered (id : Word) (found : ∃ lowered, m.generate {} = .ok lowered ∧ ∃ insts,
    lowered.assembly.instructions = .ok insts ∧ 1 ≤ id.toNat ∧ id.toNat < lowered.assembly.idBound.toNat ∧
      id ∉ insts.filterMap result) : LeavesGap m := by
  obtain ⟨lowered, generated, insts, listed, gap⟩ := found
  exact ⟨lowered, insts, generated, listed, id, gap⟩

/-- Owning everything once, finished blocks and known operands are not enough: neither a parameter of an
empty continuing block nor the label of a branch without a block is ever defined. -/
theorem grounded_leaves_gap :
    (unvisited.Owned ∧ Fits unvisited unvisited.Reached ∧ Grounded unvisited ∧ LeavesGap unvisited) ∧
      stray.Owned ∧ Fits stray stray.Reached ∧ Grounded stray ∧ LeavesGap stray := by
  refine ⟨⟨owned_of_tables (by decide +kernel) (by decide) (by decide) (by decide),
    fits_of_tables (by decide) (by decide), ?_, leavesGap_of_lowered 11 (by decide +kernel)⟩,
    owned_of_tables (by decide +kernel) (by decide) (by decide) (by decide),
    fits_of_tables (by decide) (by decide), ?_, leavesGap_of_lowered 11 (by decide +kernel)⟩
  · have reached {id : InstId} (bound : id.index < unvisited.insts.size) := reached_of_tables (by decide) bound
    refine grounded_of_tables reached ?_ (by decide) (by decide) (by decide)
    intro index bound
    match index, bound with
    | 0, _ => exact .continuingParam (reached (show (⟨0⟩ : InstId).index < 4 by decide)) rfl rfl rfl (by decide)
    | 1, _ => exact .result (reached (show (⟨1⟩ : InstId).index < 4 by decide)) rfl (by decide)
  · have reached {id : InstId} (bound : id.index < stray.insts.size) := reached_of_tables (by decide) bound
    refine grounded_of_tables reached ?_ (by decide) (by decide) (by decide)
    intro index bound
    match index, bound with
    | 0, _ => exact .result (reached (show (⟨0⟩ : InstId).index < 7 by decide)) rfl (by decide)

end Shader.Lower
