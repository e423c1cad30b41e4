import Shader.Proofs.Builder.Edits

/-!
The shape of a module under construction.

Tables refer to each other in both directions: blocks list the instructions that name them, values are listed by
what they originate from, blocks name the construct that owns them, and constructs and blocks list the branches that
go there. Every edit keeps each of these in step.
-/
namespace Shader

open List Kind

/-- The blocks of a loop that branches go on in. -/
def Kind.loopBlocks? : Kind → Option (BlockId × BlockId)
  | .loop l => some (l.body, l.continuing)
  | _ => none

namespace Module

variable {id : InstId}

/-- The block that an instruction is in. -/
def home? (m : Module) (id : InstId) : Option BlockId := (m.insts[id.index]?).map Inst.block

/-- What a block says about its owner. -/
def parent? (m : Module) (block : BlockId) : Option (Option InstId) := (m.blocks[block.index]?).map Block.parent

/-- The branches that a block lists. -/
def inbound? (m : Module) (block : BlockId) : Option (List InstId) := (m.blocks[block.index]?).map Block.inbound

/-- What a value originates from. -/
def origin? (m : Module) (value : ValueId) : Option Origin := (m.values[value.index]?).map ValueDef.origin

/-- The values that something defines, in order. -/
def definedBy (m : Module) : Origin → List ValueId
  | .result id => ((m.insts[id.index]?).map Inst.results).getD []
  | .functionParam id => ((m.functions[id.index]?).map Function.params).getD []
  | .blockParam id => ((m.blocks[id.index]?).map Block.params).getD []

/-- The blocks that functions start in. -/
def entries (m : Module) : List BlockId := m.functions.toList.map Function.entry

/-- The instructions that are chosen by what they do, in the order they were made. -/
def select (m : Module) (chosen : Kind → Bool) : List InstId :=
  ((range m.insts.size).map InstId.mk).filter fun id => (m.kind? id).any chosen

/-- Instructions and the lists of the blocks agree, and only the last instruction of a block may end it. -/
structure ListsInsts (m : Module) : Prop where
  listed : ∀ {id block}, id ∈ m.instsOf block ↔ m.home? id = some block
  once : ∀ block, (m.instsOf block).Nodup
  ended : ∀ {id block}, id ∈ (m.instsOf block).dropLast → (m.kind? id).map isTerminator = some false

/-- Values are defined by what they originate from, once. -/
structure DefinesValues (m : Module) : Prop where
  defined : ∀ {value origin}, value ∈ m.definedBy origin ↔ m.origin? value = some origin
  once : ∀ origin, (m.definedBy origin).Nodup

/-- A construct owns blocks that name it, and a function starts in a block that names no construct. -/
structure OwnsBlocks (m : Module) : Prop where
  root : m.parent? .root = some none
  entries : ∀ entry ∈ m.entries, entry ≠ .root ∧ m.parent? entry = some none
  entriesOnce : m.entries.Nodup
  children : ∀ {id kind}, m.kind? id = some kind → ∀ block ∈ kind.children, m.parent? block = some (some id)
  childrenOnce : ∀ {id kind}, m.kind? id = some kind → kind.children.Nodup

/-- Constructs list the branches that leave them, and blocks the branches that go to them. -/
structure RegistersBranches (m : Module) : Prop where
  targets : ∀ {id kind}, m.kind? id = some kind → ∀ target ∈ kind.target?, target.index < m.insts.size
  exits : ∀ {id kind}, m.kind? id = some kind → ∀ found ∈ kind.construct?,
    found.2 = m.select fun kind => kind.leaves? = some (found.1, id)
  inbound : ∀ {block inbound}, m.inbound? block = some inbound →
    inbound = m.select fun kind => m.goesTo? kind = some block

/-- The instructions of a block, when the table is read as far as it goes. -/
theorem instsOf_eq_getD (m : Module) (block : BlockId) :
    m.instsOf block = ((m.blocks[block.index]?).map Block.insts).getD [] := by
  rw [instsOf, Module.block]
  cases m.blocks[block.index]? <;> rfl

theorem getElem?_map_modify {α β : Type} {f : α → β} {update : α → α} (same : ∀ a, f (update a) = f a)
    (array : Array α) (index i : Nat) : ((array.modify index update)[i]?).map f = (array[i]?).map f := by
  rw [← Array.getElem?_map, map_modify_of_eq same, Array.getElem?_map]

variable {inward stray : Prop} {m m' : Module}

theorem ListsInsts.congr (lists : m.ListsInsts) (blocks : ∀ block, m'.instsOf block = m.instsOf block)
    (homes : ∀ id, m'.home? id = m.home? id)
    (ends : ∀ id, (m'.kind? id).map isTerminator = (m.kind? id).map isTerminator) : m'.ListsInsts where
  listed {id block} := by
    rw [blocks, homes]
    exact lists.listed
  once block := by
    rw [blocks]
    exact lists.once block
  ended {id block} := by
    rw [blocks, ends]
    exact lists.ended

theorem DefinesValues.congr (defines : m.DefinesValues) (lists : ∀ origin, m'.definedBy origin = m.definedBy origin)
    (origins : ∀ value, m'.origin? value = m.origin? value) : m'.DefinesValues where
  defined {value origin} := by
    rw [lists, origins]
    exact defines.defined
  once origin := by
    rw [lists]
    exact defines.once origin

section addBlock

variable (parent : Option InstId) (block : BlockId)

theorem instsOf_addBlock : (m.addBlock parent).instsOf block = m.instsOf block := by
  rw [instsOf_eq_getD, instsOf_eq_getD, addBlock, Array.getElem?_push]
  split
  · rename_i last
    rw [last, Array.getElem?_size]
    rfl
  · rfl

theorem definedBy_addBlock (origin : Origin) : (m.addBlock parent).definedBy origin = m.definedBy origin := by
  cases origin with
  | result | functionParam => rfl
  | blockParam block =>
    rw [definedBy, definedBy, addBlock, Array.getElem?_push]
    split
    · rename_i last
      rw [last, Array.getElem?_size]
      rfl
    · rfl

theorem parent?_addBlock : (m.addBlock parent).parent? block =
    if block.index = m.blocks.size then some parent else m.parent? block := by
  rw [parent?, parent?, addBlock, Array.getElem?_push]
  split <;> rfl

theorem inbound?_addBlock : (m.addBlock parent).inbound? block =
    if block.index = m.blocks.size then some [] else m.inbound? block := by
  rw [inbound?, inbound?, addBlock, Array.getElem?_push]
  split <;> rfl

end addBlock

section addInst

variable (home : BlockId) (kind : Kind) (types : List Ty)

theorem kind?_addInst (id : InstId) : (m.addInst home kind types).kind? id =
    if id.index = m.insts.size then some kind else m.kind? id := by
  rw [kind?, kind?, addInst, Array.getElem?_push]
  split <;> rfl

theorem home?_addInst (id : InstId) : (m.addInst home kind types).home? id =
    if id.index = m.insts.size then some home else m.home? id := by
  rw [home?, home?, addInst, Array.getElem?_push]
  split <;> rfl

theorem instsOf_addInst {b : Block} (held : m.block home = .ok b) (block : BlockId) :
    (m.addInst home kind types).instsOf block =
      if block = home then m.instsOf block ++ [⟨m.insts.size⟩] else m.instsOf block := by
  rw [instsOf_eq_getD, instsOf_eq_getD, addInst, Array.getElem?_modify]
  have found : m.blocks[home.index]? = some b := block_eq_ok.mp held
  by_cases same : block = home
  · simp [same, found]
  · have apart : home.index ≠ block.index := fun eq => same (congrArg BlockId.mk eq.symm)
    simp [same, apart]

theorem parent?_addInst (block : BlockId) : (m.addInst home kind types).parent? block = m.parent? block := by
  simp [parent?, addInst, getElem?_map_modify]

theorem inbound?_addInst (block : BlockId) : (m.addInst home kind types).inbound? block = m.inbound? block := by
  simp [inbound?, addInst, getElem?_map_modify]

theorem origin?_addInst (value : ValueId) : (m.addInst home kind types).origin? value =
    if value.index < m.values.size then m.origin? value
    else if value.index < m.values.size + types.length then some (.result ⟨m.insts.size⟩) else none := by
  rw [origin?, origin?, addInst, Array.getElem?_append]
  split
  · rfl
  · rename_i beyond
    have split : value.index - m.values.size < types.length ↔ value.index < m.values.size + types.length := by omega
    by_cases within : value.index < m.values.size + types.length
    · simp [within, split.mpr within]
    · simp [within, Nat.not_lt.mp (mt split.mp within)]

theorem definedBy_addInst (origin : Origin) : (m.addInst home kind types).definedBy origin =
    if origin = .result ⟨m.insts.size⟩ then (range' m.values.size types.length).map ValueId.mk
    else m.definedBy origin := by
  cases origin with
  | functionParam | blockParam => simp [definedBy, addInst, getElem?_map_modify]
  | result id =>
    rw [definedBy, definedBy, addInst, Array.getElem?_push]
    obtain ⟨index⟩ := id
    by_cases last : index = m.insts.size <;> simp [last]

end addInst

section changeKind

variable (target : InstId) (update : Kind → Kind)

theorem kind?_changeKind (id : InstId) : (m.changeKind target update).kind? id =
    if id = target then (m.kind? id).map update else m.kind? id := by
  rw [kind?, kind?, changeKind, Array.getElem?_modify]
  obtain ⟨index⟩ := id
  obtain ⟨other⟩ := target
  by_cases same : other = index
  · simp [same, Function.comp_def]
  · simp [same, Ne.symm same]

theorem home?_changeKind (id : InstId) : (m.changeKind target update).home? id = m.home? id := by
  simp [home?, changeKind, getElem?_map_modify]

theorem definedBy_changeKind (origin : Origin) :
    (m.changeKind target update).definedBy origin = m.definedBy origin := by
  cases origin with
  | functionParam | blockParam => rfl
  | result id => simp [definedBy, changeKind, getElem?_map_modify]

end changeKind

section withExit

variable (expected : ConstructKind) (exit : InstId) (kind : Kind)

/-- A branch that is registered changes nothing but the list it is registered in. -/
theorem isTerminator_withExit : ((Build.withExit expected exit kind).getD kind).isTerminator = kind.isTerminator := by
  cases expected <;> cases kind <;> rfl

theorem children_withExit : ((Build.withExit expected exit kind).getD kind).children = kind.children := by
  cases expected <;> cases kind <;> rfl

theorem target?_withExit : ((Build.withExit expected exit kind).getD kind).target? = kind.target? := by
  cases expected <;> cases kind <;> rfl

theorem leaves?_withExit : ((Build.withExit expected exit kind).getD kind).leaves? = kind.leaves? := by
  cases expected <;> cases kind <;> rfl

theorem loopBlocks?_withExit : ((Build.withExit expected exit kind).getD kind).loopBlocks? = kind.loopBlocks? := by
  cases expected <;> cases kind <;> rfl

theorem goesTo?_withExit : m.goesTo? ((Build.withExit expected exit kind).getD kind) = m.goesTo? kind := by
  cases expected <;> cases kind <;> rfl

theorem construct?_withExit : ((Build.withExit expected exit kind).getD kind).construct? =
    kind.construct?.map fun found => if found.1 = expected then (found.1, found.2 ++ [exit]) else found := by
  cases expected <;> cases kind <;> rfl

end withExit

/-- Nothing is in the place of the next instruction. -/
theorem kind?_of_size (next : id.index = m.insts.size) : m.kind? id = none := by simp [kind?, next]

theorem kind?_eq {inst : Inst} (held : m.inst id = .ok inst) : m.kind? id = some inst.kind :=
  Option.map_eq_some_iff.mpr ⟨inst, inst_eq_ok.mp held, rfl⟩

theorem lt_of_kind? {kind : Kind} (held : m.kind? id = some kind) : id.index < m.insts.size := by
  obtain ⟨inst, found, -⟩ := Option.map_eq_some_iff.mp held
  exact (Array.getElem?_eq_some_iff.mp found).1

theorem lt_of_parent? {block : BlockId} {parent : Option InstId} (held : m.parent? block = some parent) :
    block.index < m.blocks.size := by
  obtain ⟨b, found, -⟩ := Option.map_eq_some_iff.mp held
  exact (Array.getElem?_eq_some_iff.mp found).1

namespace ListsInsts

section
variable (lists : m.ListsInsts)
include lists

theorem changeKind {target : InstId} {update : Kind → Kind}
    (ends : ∀ kind, m.kind? target = some kind → (update kind).isTerminator = kind.isTerminator) :
    (m.changeKind target update).ListsInsts := by
  refine lists.congr (fun _ => rfl) (home?_changeKind target update) fun id => ?_
  rw [kind?_changeKind]
  split
  · rename_i same
    subst same
    cases held : m.kind? id with
    | none => rfl
    | some kind => exact congrArg some (ends kind held)
  · rfl

theorem addExit (exit : InstId) (left : Option (ConstructKind × InstId)) : (m.addExit exit left).ListsInsts := by
  cases left with
  | none => exact lists
  | some left => exact lists.changeKind fun kind _ => isTerminator_withExit ..

theorem addInbound (branch : InstId) (block : Option BlockId) : (m.addInbound branch block).ListsInsts := by
  cases block with
  | none => exact lists
  | some block =>
    refine lists.congr (fun other => ?_) (fun _ => rfl) fun _ => rfl
    simp [instsOf_eq_getD, Module.addInbound, getElem?_map_modify]

/-- No instruction ends a block that can be added to: neither the last one nor one before it. -/
theorem unended {home : BlockId} (opened : m.terminator? home = .ok none)
    (member : id ∈ m.instsOf home) : (m.kind? id).map isTerminator = some false := by
  obtain ⟨b, held, last⟩ := terminator?_eq_none.mp opened
  have earlier : id ∈ b.insts.dropLast → (m.kind? id).map isTerminator = some false := fun before =>
    lists.ended (instsOf_eq held ▸ before)
  rw [instsOf_eq held] at member
  rcases eq_nil_or_concat' b.insts with none | ⟨before, final, concat⟩
  · simp [none] at member
  · rw [concat, mem_append, mem_singleton] at member
    rcases member with before | rfl
    · exact earlier (by simpa [concat] using before)
    · obtain ⟨inst, found, goes⟩ := last id (by simp [concat])
      rw [kind?, show m.insts[id.index]? = some inst from inst_eq_ok.mp found]
      exact congrArg some goes

/-- An instruction is added to a block that has not been ended. -/
theorem addInst {home : BlockId} (kind : Kind) (types : List Ty)
    (opened : m.terminator? home = .ok none) : (m.addInst home kind types).ListsInsts := by
  obtain ⟨b, held, -⟩ := terminator?_eq_none.mp opened
  have fresh (block : BlockId) : (⟨m.insts.size⟩ : InstId) ∉ m.instsOf block := by
    rw [lists.listed, home?]
    simp
  constructor
  · intro id block
    rw [instsOf_addInst home kind types held, home?_addInst]
    obtain ⟨index⟩ := id
    by_cases new : index = m.insts.size
    · subst new
      by_cases same : block = home
      · simp [same]
      · simp [same, Ne.symm same, fresh]
    · by_cases same : block = home
      · simp [same, new, lists.listed]
      · simp [same, new, lists.listed]
  · intro block
    rw [instsOf_addInst home kind types held]
    split
    · exact nodup_append.mpr ⟨lists.once block, nodup_singleton _, fun id member other isNew same =>
        fresh block (mem_singleton.mp isNew ▸ same ▸ member)⟩
    · exact lists.once block
  · intro id block
    rw [instsOf_addInst home kind types held, kind?_addInst]
    intro member
    have old : id ∈ m.instsOf block ∧ (m.kind? id).map isTerminator = some false := by
      split at member
      · rename_i same
        subst same
        rw [dropLast_concat] at member
        exact ⟨member, lists.unended opened member⟩
      · exact ⟨dropLast_subset _ member, lists.ended member⟩
    have other : id.index ≠ m.insts.size := by
      rintro same
      obtain ⟨index⟩ := id
      subst same
      exact fresh block old.1
    rw [if_neg other]
    exact old.2

end

end ListsInsts

/-- Every edit keeps the lists of the blocks in step with the instructions. -/
theorem Edit.listsInsts (edit : Edit inward stray m m') (lists : m.ListsInsts) : m'.ListsInsts := by
  have block (m : Module) (lists : m.ListsInsts) (parent : Option InstId) : (m.addBlock parent).ListsInsts :=
    lists.congr (instsOf_addBlock parent) (fun _ => rfl) fun _ => rfl
  cases edit with
  | relabel => exact lists.congr (fun _ => rfl) (fun _ => rfl) fun _ => rfl
  | block parent => exact block m lists parent
  | function => exact lists.congr (instsOf_addBlock none) (fun _ => rfl) fun _ => rfl
  | param => exact lists.congr (fun _ => rfl) (fun _ => rfl) fun _ => rfl
  | blockParam =>
    refine lists.congr (fun other => ?_) (fun _ => rfl) fun _ => rfl
    simp [instsOf_eq_getD, getElem?_map_modify]
  | inst opened => exact ((lists.addInst _ _ opened).addExit _ _).addInbound _ _
  | conditional opened | loop opened =>
    exact (block _ (block m lists _) _).addInst _ _ opened
  | initializer held =>
    refine (block m lists _).changeKind fun kind same => ?_
    cases (loop?_eq_some.mp held).symm.trans same
    rfl
  | case held =>
    refine (block m lists _).changeKind fun kind same => ?_
    cases held.symm.trans same
    rfl

namespace DefinesValues

section
variable (defines : m.DefinesValues)
include defines

theorem changeKind (target : InstId) (update : Kind → Kind) : (m.changeKind target update).DefinesValues :=
  defines.congr (definedBy_changeKind target update) fun _ => rfl

theorem addExit (exit : InstId) (left : Option (ConstructKind × InstId)) : (m.addExit exit left).DefinesValues := by
  cases left with
  | none => exact defines
  | some left =>
    obtain ⟨expected, target⟩ := left
    rw [Module.addExit]
    exact defines.changeKind ..

theorem addInbound (branch : InstId) (block : Option BlockId) : (m.addInbound branch block).DefinesValues := by
  cases block with
  | none => exact defines
  | some block =>
    refine defines.congr (fun origin => ?_) fun _ => rfl
    cases origin with
    | result | functionParam => rfl
    | blockParam => simp [definedBy, Module.addInbound, getElem?_map_modify]

theorem addBlock (parent : Option InstId) : (m.addBlock parent).DefinesValues :=
  defines.congr (definedBy_addBlock parent) fun _ => rfl

/-- A value that does not exist is defined nowhere. -/
theorem not_mem {value : ValueId} (beyond : m.values.size ≤ value.index)
    (origin : Origin) : value ∉ m.definedBy origin := by
  rw [defines.defined, origin?]
  simp [beyond]

/-- The results of an instruction are new values. -/
theorem addInst (home : BlockId) (kind : Kind) (types : List Ty) : (m.addInst home kind types).DefinesValues := by
  have unused : m.definedBy (.result ⟨m.insts.size⟩) = [] := by simp [definedBy]
  constructor
  · intro value origin
    rw [definedBy_addInst, origin?_addInst]
    obtain ⟨index⟩ := value
    by_cases old : index < m.values.size
    · rw [if_pos old, ← defines.defined]
      split
      · rename_i same
        subst same
        rw [unused]
        simp only [mem_map, mem_range'_1, ValueId.mk.injEq, not_mem_nil, iff_false]
        omega
      · rfl
    · rw [if_neg old]
      have absent := defines.not_mem (Nat.not_lt.mp old) origin
      by_cases same : origin = .result ⟨m.insts.size⟩
      · subst same
        by_cases new : index < m.values.size + types.length
        · simp [new, Nat.not_lt.mp old]
        · simp [new]
      · simp [same, Ne.symm same, absent]
  · intro origin
    rw [definedBy_addInst]
    split
    · exact (nodup_range' ..).map fun _ _ same => ValueId.mk.inj same
    · exact defines.once origin

/-- One more value, which is listed at the end where it originates from. -/
theorem push {origin : Origin} (lists : ∀ other, m'.definedBy other =
      if other = origin then m.definedBy other ++ [⟨m.values.size⟩] else m.definedBy other)
    (origins : ∀ value, m'.origin? value =
      if value.index = m.values.size then some origin else m.origin? value) : m'.DefinesValues := by
  have absent (other : Origin) : (⟨m.values.size⟩ : ValueId) ∉ m.definedBy other := defines.not_mem le_rfl other
  constructor
  · intro value other
    rw [lists, origins]
    obtain ⟨index⟩ := value
    by_cases new : index = m.values.size
    · subst new
      by_cases same : other = origin
      · simp [same]
      · simp [same, Ne.symm same, absent]
    · by_cases same : other = origin
      · simp [same, new, defines.defined]
      · simp [same, new, defines.defined]
  · intro other
    rw [lists]
    split
    · exact nodup_append.mpr ⟨defines.once other, nodup_singleton _, fun value member last isNew same =>
        absent other (mem_singleton.mp isNew ▸ same ▸ member)⟩
    · exact defines.once other

end

end DefinesValues

/-- A list of one entry of a table gets longer, and no other does. -/
theorem getD_map_modify {α β : Type} {f : α → List β} {update : α → α} {extra : List β}
    (appends : ∀ a, f (update a) = f a ++ extra) {array : Array α} {index : Nat} (bound : index < array.size)
    (i : Nat) : (((array.modify index update)[i]?).map f).getD [] =
      if i = index then ((array[i]?).map f).getD [] ++ extra else ((array[i]?).map f).getD [] := by
  rw [Array.getElem?_modify]
  by_cases same : i = index
  · subst same
    simp [bound, appends]
  · simp [same, Ne.symm same]

theorem origin?_push {value : ValueDef} {values : Array ValueDef} (id : ValueId) :
    ((values.push value)[id.index]?).map ValueDef.origin =
      if id.index = values.size then some value.origin else (values[id.index]?).map ValueDef.origin := by
  rw [Array.getElem?_push]
  split <;> rfl

/-- Every edit keeps values and what defines them in step. -/
theorem Edit.definesValues (edit : Edit inward stray m m') (defines : m.DefinesValues) : m'.DefinesValues := by
  cases edit with
  | relabel origins params =>
    refine defines.congr (fun origin => ?_) fun value => ?_
    · cases origin with
      | result | blockParam => rfl
      | functionParam => rw [definedBy, definedBy, ← Array.getElem?_map, params, Array.getElem?_map]
    · rw [origin?, origin?, ← Array.getElem?_map, origins, Array.getElem?_map]
  | block parent => exact defines.addBlock parent
  | function entry params =>
    refine (defines.addBlock none).congr (fun origin => ?_) fun value => rfl
    cases origin with
    | result | blockParam => rfl
    | functionParam id =>
      rw [definedBy, definedBy, Array.getElem?_push]
      split
      · rename_i last
        simp [last, params, Module.addBlock]
      · rfl
  | @param id value known origin =>
    refine defines.push (fun other => ?_) fun other => (origin?_push other).trans (by rw [origin]; rfl)
    cases other with
    | result | blockParam => simp [definedBy]
    | functionParam other =>
      obtain ⟨index⟩ := id
      obtain ⟨i⟩ := other
      simpa [definedBy] using getD_map_modify (fun _ => rfl) known i
  | @blockParam id value known origin =>
    refine defines.push (fun other => ?_) fun other => (origin?_push other).trans (by rw [origin]; rfl)
    cases other with
    | result | functionParam => simp [definedBy]
    | blockParam other =>
      obtain ⟨index⟩ := id
      obtain ⟨i⟩ := other
      simpa [definedBy] using getD_map_modify (fun _ => rfl) known i
  | inst opened => exact ((defines.addInst ..).addExit _ _).addInbound _ _
  | conditional opened | loop opened =>
    exact ((defines.addBlock _).addBlock _).addInst ..
  | initializer held | case held => exact (defines.addBlock _).changeKind ..

end Module

end Shader
