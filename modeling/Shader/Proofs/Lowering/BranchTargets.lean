import Shader.Proofs.Lowering.WalkOrder

/-!
Where the branches of a function lead.

A branch leads to a place that is laid out later, with one exception: the branches back to the header of a
loop. While the blocks of a construct are laid out, the places that come after them are open: the place
after each construct around them, and the continuing block of each loop whose body they are in. A branch
leads to a place that is open or to one within its own construct.
-/
namespace Shader.Binary.Instruction

/-- The labels among operands that pair numbers with labels. -/
def caseLabels : List Operand → List Word
  | _ :: .id label :: rest => label :: caseLabels rest
  | _ => []

/-- The labels a branch leads to. -/
def branches (inst : Instruction) : List Word :=
  match inst.op, inst.operands with
  | .branch, [.id target] => [target]
  | .branchConditional, [_, .id whenTrue, .id whenFalse] => [whenTrue, whenFalse]
  | .switch, _ :: .id otherwise :: cases => otherwise :: caseLabels cases
  | _, _ => []

/-- The labels that a merge declares. -/
def merges (inst : Instruction) : List Word :=
  match inst.op, inst.operands with
  | .selectionMerge, .id merge :: _ => [merge]
  | .loopMerge, .id merge :: .id continuing :: _ => [merge, continuing]
  | _, _ => []

end Shader.Binary.Instruction

namespace Shader

open List Lower Jump

variable {within : Enclosing} {block : BlockId}

/-- The places that the end of a block leads to. -/
def Kind.branchPlaces (m : Module) (within : Enclosing) : Kind → List Place
  | .breakIf .. => within.loop.toList.flatMap fun loop => [.merge loop, .header loop]
  | .continueTo target _ =>
    match m.inst target with
    | .ok ⟨.loop l, _, _⟩ => [.block l.continuing]
    | _ => []
  | .exitIf .. => within.conditional.toList.map .merge
  | .exitLoop .. => within.loop.toList.map .merge
  | .exitSwitch .. => within.switch.toList.map .merge
  | .nextIteration .. => within.loop.toList.map .header
  | _ => []

/-- The loop that a `continue` names. -/
def Kind.continued? : Kind → Option InstId
  | .continueTo target _ => some target
  | _ => none

/-- What is around the blocks of a construct. -/
def Enclosing.inside (within : Enclosing) (id : InstId) : Kind → Enclosing
  | .conditional _ => { within with conditional := some id }
  | .loop _ => { within with loop := some id }
  | .switch _ => { within with switch := some id }
  | _ => within

/-- The places that a basic block leads to. -/
def Jump.branchPlaces (m : Module) (within : Enclosing) : Jump → List Place
  | .terminator _ kind => kind.branchPlaces m within
  | .conditional id inst c => [branchPlace m id inst c.whenTrue, branchPlace m id inst c.whenFalse]
  | .switch _ s => s.cases.map fun case => .block case.block
  | .enter id l => [entryPlace id l]
  | .head _ l => [.block l.body]
  | .again loop => [.header loop]
  | .onward construct => [.merge construct]
  | .stuck => []

/-- The places that a basic block declares to come after it. -/
def Jump.mergePlaces : Jump → List Place
  | .conditional id _ _ | .switch id _ => [.merge id]
  | .head id l => [.merge id, .block l.continuing]
  | _ => []

namespace Module

variable {m : Module}
variable {first second : List Segment} {items : List BlockId} {l : Loop}

/-- The places where basic blocks start. -/
abbrev places (segments : List Segment) : List Place := segments.map (·.place)

/-- Each basic block leads to places of later ones or to allowed places, and the header of a loop declares
where the loop merges. -/
def Forward (m : Module) (allowed : Place → Prop) : List Segment → Prop
  | [] => True
  | segment :: rest =>
    (∀ place ∈ segment.jump.mergePlaces, place ∈ places rest ∨ allowed place) ∧
      (∀ place ∈ segment.jump.branchPlaces m segment.within, place ∈ places rest ∨ allowed place) ∧
      (∀ loop, segment.place = .header loop → ∃ l, segment.jump = .head loop l) ∧ m.Forward allowed rest

variable {allowed more : Place → Prop}

theorem Forward.mono {segments : List Segment} (forward : m.Forward allowed segments)
    (implied : ∀ place, allowed place → more place) : m.Forward more segments := by
  induction segments with
  | nil => trivial
  | cons segment rest ih =>
    obtain ⟨merges, branches, headed, later⟩ := forward
    exact ⟨fun place member => (merges place member).imp_right (implied place),
      fun place member => (branches place member).imp_right (implied place), headed, ih later⟩

theorem Forward.append (one : m.Forward (fun place => place ∈ places second ∨ allowed place) first)
    (two : m.Forward allowed second) : m.Forward allowed (first ++ second) := by
  induction first with
  | nil => exact two
  | cons segment rest ih =>
    obtain ⟨merges, branches, headed, later⟩ := one
    have leads : ∀ place, place ∈ places rest ∨ place ∈ places second ∨ allowed place →
        place ∈ places (rest ++ second) ∨ allowed place := by
      intro place led
      rw [places, map_append, mem_append]
      exact or_assoc.mpr led
    exact ⟨fun place member => leads place (merges place member),
      fun place member => leads place (branches place member), headed, ih later⟩

theorem Forward.flatMap {segments : BlockId → List Segment}
    (each : ∀ item ∈ items, m.Forward allowed (segments item)) : m.Forward allowed (items.flatMap segments) := by
  induction items with
  | nil => trivial
  | cons item rest ih =>
    have later := ih fun other member => each other (by simp [member])
    exact .append ((each item (by simp)).mono fun _ => .inr) later

/-- How a flow goes on. -/
structure FlowForward (m : Module) (allowed : Place → Prop) (within : Enclosing) (flow : Flow) : Prop where
  merges : ∀ place ∈ flow.jump.mergePlaces, place ∈ places flow.rest ∨ allowed place
  branches : ∀ place ∈ flow.jump.branchPlaces m within, place ∈ places flow.rest ∨ allowed place
  rest : m.Forward allowed flow.rest

theorem FlowForward.segments {flow : Flow} (forward : m.FlowForward allowed within flow)
    (place : Place) (home : BlockId) (joins : Joins) (plain : place.header? = none) :
    m.Forward allowed (flow.segments place home within joins) := by
  refine ⟨forward.merges, forward.branches, ?_, forward.rest⟩
  rintro loop rfl
  cases plain

theorem flowForward_stuck : m.FlowForward allowed within .stuck :=
  ⟨by simp [Flow.stuck, mergePlaces], by simp [Flow.stuck, branchPlaces], trivial⟩

/-- The loop is around the block: the block is in its body. -/
def InBody (m : Module) (entry : BlockId) (loop : InstId) (l : Loop) (block : BlockId) : Prop :=
  ∃ outer inst, m.Under entry outer ∧ loop ∈ m.instsOf outer ∧ m.inst loop = .ok inst ∧ inst.kind = .loop l ∧
    m.Under l.body block

/-- The places that are open within a block are allowed, and so are the headers of loops. -/
structure Opened (m : Module) (entry : BlockId) (allowed : Place → Prop) (within : Enclosing) (block : BlockId) :
    Prop where
  merge : ∀ id, within.conditional = some id ∨ within.switch = some id ∨ within.loop = some id → allowed (.merge id)
  header : ∀ loop, allowed (.header loop)
  continuing : ∀ loop l, m.InBody entry loop l block → allowed (.block l.continuing)

/-- A loop around a block of a construct is that construct, if the block is its body, or else is around the
construct. -/
theorem InBody.last {entry child : BlockId} {walked : List BlockId} {id loop : InstId} {inst : Inst}
    (nested : m.Nested entry walked) (above : m.Under entry block) (holds : m.Holds block id child)
    (held : m.inst id = .ok inst) (inBody : m.InBody entry loop l child) :
    inst.kind = .loop l ∧ l.body = child ∨ m.InBody entry loop l block := by
  obtain ⟨outer, owner, outerAbove, isInst, ownerHeld, kind, under⟩ := inBody
  have body : m.Holds outer loop l.body := ⟨isInst, by simp [blocksOf_eq ownerHeld, kind, Kind.children]⟩
  rcases under.last with same | ⟨block', id', under', holds'⟩
  · rw [same] at holds
    obtain ⟨-, rfl⟩ := nested.owner_unique above outerAbove holds body
    cases held.symm.trans ownerHeld
    exact .inl ⟨kind, same.symm⟩
  · have above' : m.Under entry block' := (outerAbove.trans body.under).trans under'
    obtain ⟨rfl, -⟩ := nested.owner_unique above above' holds holds'
    exact .inr ⟨outer, owner, outerAbove, isInst, ownerHeld, kind, under'⟩

/-- No loop of a function is around its entry. -/
theorem not_inBody_entry {entry : BlockId} {walked : List BlockId} {loop : InstId}
    (nested : m.Nested entry walked) : ¬ m.InBody entry loop l entry := by
  rintro ⟨outer, owner, above, isInst, held, kind, under⟩
  have body : m.Holds outer loop l.body := ⟨isInst, by simp [blocksOf_eq held, kind, Kind.children]⟩
  rcases under.last with same | ⟨block, id, under', holds⟩
  · rw [← same] at body
    exact nested.entry_free above body
  · exact nested.entry_free ((above.trans body.under).trans under') holds

/-- Every block under the first one names the construct that owns it. -/
def Parented (m : Module) (entry : BlockId) : Prop :=
  ∀ outer id inner b, m.Under entry outer → m.Holds outer id inner → m.block inner = .ok b → b.parent = some id

/-- Every `continue` is in the body of the loop it names. -/
def ContinuesInside (m : Module) (entry : BlockId) : Prop :=
  ∀ block id inst target, m.Under entry block → id ∈ m.instsOf block → m.inst id = .ok inst →
    inst.kind.continued? = some target → ∃ l, m.InBody entry target l block

section
variable {depth : Nat} {entry : BlockId} {walked : List BlockId}
variable {body : Enclosing → BlockId → Flow}

/-- The basic blocks of blocks lead onwards, where the open places are allowed. -/
def BodiesForward (m : Module) (entry : BlockId) (depth : Nat) : Prop :=
  ∀ {block allowed within}, m.Under entry block → m.Opened entry allowed within block →
    m.FlowForward allowed within (m.bodyFlow depth within block)

theorem mem_places_append {place : Place} :
    place ∈ places (first ++ second) ↔ place ∈ places first ∨ place ∈ places second := by
  rw [places, map_append, mem_append]

theorem mem_places_flatMap {segments : BlockId → List Segment} {item : BlockId}
    (member : item ∈ items) {place : Place} (inside : place ∈ places (segments item)) :
    place ∈ places (items.flatMap segments) := by
  obtain ⟨segment, listed, rfl⟩ := mem_map.mp inside
  exact mem_map_of_mem (mem_flatMap.mpr ⟨item, member, listed⟩)

theorem block_mem_childSegments {b : Block} (found : m.block block = .ok b) :
    .block block ∈ places (m.childSegments body within block) := by
  unfold childSegments
  rw [found]
  dsimp only
  split <;> simp [Flow.segments]

theorem block_mem_returnSegments {loop : InstId} {b : Block}
    (found : m.block block = .ok b) : .block block ∈ places (m.returnSegments body within loop block) := by
  unfold returnSegments
  split
  · simp
  · exact block_mem_childSegments found

/-- A construct within a block, and what is known where it stands. -/
structure Stands (m : Module) (entry block : BlockId) (within : Enclosing) (allowed : Place → Prop) (id : InstId)
    (inst : Inst) : Prop where
  above : m.Under entry block
  member : id ∈ m.instsOf block
  held : m.inst id = .ok inst
  opened : m.Opened entry allowed within block

variable {block : BlockId} {within : Enclosing} {allowed : Place → Prop} {id : InstId} {inst : Inst}

section
variable (stands : m.Stands entry block within allowed id inst)
include stands

variable {child : BlockId}

theorem Stands.holds (owned : child ∈ inst.kind.children) : m.Holds block id child :=
  ⟨stands.member, by rwa [blocksOf_eq stands.held]⟩

theorem Stands.found (nested : m.Nested entry walked) (owned : child ∈ inst.kind.children) :
    ∃ b, m.block child = .ok b := by
  obtain ⟨b, found, -⟩ := nested.walks.found (stands.above.trans (stands.holds owned).under)
  exact ⟨b, found⟩

/-- What is open in a block of a construct: the place after the construct, and what was open before. -/
theorem Stands.inside (nested : m.Nested entry walked) (owned : child ∈ inst.kind.children)
    (implied : ∀ place, place = .merge id ∨ allowed place → more place)
    (isBody : ∀ l, inst.kind = .loop l → l.body = child → more (.block l.continuing)) :
    m.Opened entry more (within.inside id inst.kind) child where
  merge other around := by
    have before : other = id ∨ within.conditional = some other ∨ within.switch = some other ∨
        within.loop = some other := by
      cases kind : inst.kind <;> simp only [kind, Enclosing.inside, Option.some.injEq] at around <;> grind
    exact implied _ (before.imp (congrArg Place.merge) (stands.opened.merge other))
  header loop := implied _ (.inr (stands.opened.header loop))
  continuing loop l inBody := by
    rcases inBody.last nested stands.above (stands.holds owned) stands.held with ⟨kind, same⟩ | before
    · exact isBody l kind same
    · exact implied _ (.inr (stands.opened.continuing loop l before))

end

section
variable (forward : m.BodiesForward entry depth) (nested : m.Nested entry walked) (parented : m.Parented entry)
  (stands : m.Stands entry block within allowed id inst)
include forward nested parented stands

theorem BodiesForward.child {child : BlockId} (owned : child ∈ inst.kind.children)
    (implied : ∀ place, place = .merge id ∨ allowed place → more place)
    (other : ∀ l, inst.kind = .loop l → l.body ≠ child) :
    m.Forward more (m.childSegments (m.bodyFlow depth) (within.inside id inst.kind) child) := by
  have holds := stands.holds owned
  unfold childSegments
  split
  · trivial
  · rename_i b found
    split
    · have owner := parented block id child b stands.above holds found
      have leads : ∀ place ∈ (m.emptyJump b).branchPlaces m (within.inside id inst.kind), place = .merge id := by
        rcases m.emptyJump_cases b with stuck | ⟨parent, owned, onward⟩
        · simp [stuck, branchPlaces]
        · cases owner.symm.trans owned
          simp [onward, branchPlaces]
      have silent : (m.emptyJump b).mergePlaces = [] := by
        rcases m.emptyJump_cases b with stuck | ⟨parent, -, onward⟩
        · rw [stuck]; rfl
        · rw [onward]; rfl
      refine ⟨by simp [silent], fun place member => ?_, by simp, trivial⟩
      rw [leads place member]
      exact .inr (implied _ (.inl rfl))
    · have opened := stands.inside nested owned implied fun l kind same => absurd same (other l kind)
      exact (forward (stands.above.trans holds.under) opened).segments _ _ _ rfl

theorem BodiesForward.conditional {c : Conditional} (kind : inst.kind = .conditional c) :
    let segments := [c.whenTrue, c.whenFalse].flatMap
      (m.branchSegments (m.bodyFlow depth) (within.inside id inst.kind) inst)
    (∀ place ∈ (conditional id inst c).branchPlaces m within,
      place ∈ places segments ∨ place = .merge id ∨ allowed place) ∧
    m.Forward (fun place => place = .merge id ∨ allowed place) segments := by
  have owned : ∀ child ∈ [c.whenTrue, c.whenFalse], child ∈ inst.kind.children := by
    intro child member
    rwa [kind]
  constructor
  · intro place member
    obtain ⟨child, isChild, rfl⟩ : ∃ child ∈ [c.whenTrue, c.whenFalse], place = branchPlace m id inst child := by
      simpa [branchPlaces] using member
    have leads : branchPlace m id inst child ∈ places (m.branchSegments (m.bodyFlow depth) (within.inside id inst.kind)
        inst child) ∨ branchPlace m id inst child = .merge id := by
      obtain ⟨b, found⟩ := stands.found nested (owned child isChild)
      unfold branchPlace branchSegments
      rcases needsBlock m (!inst.results.isEmpty) child with _ | _ | _
      · exact .inr rfl
      · exact .inr rfl
      · exact .inl (block_mem_childSegments found)
    exact leads.imp (mem_places_flatMap isChild) .inl
  · refine .flatMap fun child member => ?_
    rw [branchSegments_eq kind]
    split
    · exact forward.child nested parented stands (owned child member) (fun _ open_ => open_) (by simp [kind])
    · trivial

theorem BodiesForward.switch {s : Switch} (kind : inst.kind = .switch s) :
    let segments := s.cases.flatMap fun case =>
      m.childSegments (m.bodyFlow depth) (within.inside id inst.kind) case.block
    (∀ place ∈ (switch id s).branchPlaces m within, place ∈ places segments) ∧
    m.Forward (fun place => place = .merge id ∨ allowed place) segments := by
  have owned : ∀ child ∈ s.cases.map Case.block, child ∈ inst.kind.children := by
    intro child member
    rwa [kind]
  dsimp only
  rw [← flatMap_map]
  constructor
  · intro place member
    obtain ⟨case, isCase, rfl⟩ := mem_map.mp member
    have isChild : case.block ∈ s.cases.map Case.block := mem_map_of_mem isCase
    obtain ⟨b, found⟩ := stands.found nested (owned _ isChild)
    exact mem_places_flatMap isChild (block_mem_childSegments found)
  · exact .flatMap fun child member =>
      forward.child nested parented stands (owned child member) (fun _ open_ => open_) (by simp [kind])

theorem BodiesForward.loop (kind : inst.kind = .loop l) :
    let segments := m.loopSegments (m.bodyFlow depth) (within.inside id inst.kind) id l
    entryPlace id l ∈ places segments ∧ m.Forward (fun place => place = .merge id ∨ allowed place) segments := by
  have children : inst.kind.children = l.initializer.toList ++ [l.body, l.continuing] := by rw [kind, Kind.children]
  have once : (l.initializer.toList ++ [l.body, l.continuing]).Nodup := by
    rw [← children, ← blocksOf_eq stands.held]
    exact nested.children_nodup stands.above stands.member
  have bodyOwned : l.body ∈ inst.kind.children := by simp [children]
  have continuingOwned : l.continuing ∈ inst.kind.children := by simp [children]
  obtain ⟨continuingBlock, continuingFound⟩ := stands.found nested continuingOwned
  unfold loopSegments
  set inner := within.inside id inst.kind
  set body := (m.bodyFlow depth inner l.body).segments (.block l.body) l.body inner .nothing with bodyIs
  set back := m.returnSegments (m.bodyFlow depth) inner id l.continuing with backIs
  set head : Segment := ⟨.header id, l.body, inner, .params l.body, [], .head id l⟩ with headIs
  have returned : .block l.continuing ∈ places back := block_mem_returnSegments continuingFound
  constructor
  · unfold entryPlace
    cases initializer : l.initializer with
    | none => simp [headIs]
    | some first =>
      have owned : first ∈ inst.kind.children := by simp [children, initializer]
      obtain ⟨b, found⟩ := stands.found nested owned
      exact mem_places_append.mpr (.inl (mem_places_flatMap (by simp) (block_mem_childSegments found)))
  · refine .append ?_ ⟨?_, ?_, ?_, .append ?_ ?_⟩
    · refine .flatMap fun child member => ?_
      have owned : child ∈ inst.kind.children := by rw [children]; exact mem_append_left _ member
      refine forward.child nested parented stands owned (fun _ => .inr) fun l' kind' same => ?_
      cases kind.symm.trans kind'
      have apart := (nodup_append'.mp once).2.2 member
      simp [same] at apart
    · intro place member
      simp only [headIs, mergePlaces, mem_cons, not_mem_nil, or_false] at member
      rcases member with rfl | rfl
      · exact .inr (.inl rfl)
      · exact .inl (mem_places_append.mpr (.inr returned))
    · intro place member
      simp only [headIs, branchPlaces, mem_cons, not_mem_nil, or_false] at member
      subst member
      exact .inl (mem_places_append.mpr (.inl (by simp [bodyIs, Flow.segments])))
    · intro loop same
      cases same
      exact ⟨l, rfl⟩
    · refine (forward (stands.above.trans (stands.holds bodyOwned).under)
        (stands.inside nested bodyOwned (fun _ => .inr) fun l' kind' _ => ?_)).segments _ _ _ rfl
      cases kind.symm.trans kind'
      exact .inl returned
    · rw [backIs]
      unfold returnSegments
      split
      · exact ⟨by simp [mergePlaces], by simp [branchPlaces, stands.opened.header], by simp, trivial⟩
      · refine forward.child nested parented stands continuingOwned (fun _ open_ => open_) fun l' kind' same => ?_
        cases kind.symm.trans kind'
        have two := (nodup_append'.mp once).2.1
        simp [same] at two

/-- The basic blocks of a construct lead to each other, to the place after the construct, and to open
places. -/
theorem BodiesForward.construct {jump : Jump} {segments : List Segment}
    (opens : m.constructSegments (m.bodyFlow depth) within id inst = some (jump, segments)) :
    (∀ place ∈ jump.mergePlaces, place = .merge id) ∧
    (∀ place ∈ jump.branchPlaces m within, place ∈ places segments ∨ place = .merge id ∨ allowed place) ∧
    m.Forward (fun place => place = .merge id ∨ allowed place) segments := by
  obtain ⟨kind, results, home⟩ := inst
  cases kind with
  | conditional c =>
    cases opens
    exact ⟨by simp [mergePlaces], forward.conditional nested parented stands rfl⟩
  | loop l =>
    cases opens
    obtain ⟨enters, later⟩ := forward.loop nested parented stands rfl
    refine ⟨by simp [mergePlaces], fun place member => .inl ?_, later⟩
    rwa [mem_singleton.mp member]
  | switch s =>
    cases opens
    obtain ⟨cases, later⟩ := forward.switch nested parented stands rfl
    exact ⟨by simp [mergePlaces], fun place member => .inl (cases place member), later⟩
  | _ => cases opens

end

theorem Opened.terminator (opened : m.Opened entry allowed within block) (continues : m.ContinuesInside entry)
    (above : m.Under entry block) (member : id ∈ m.instsOf block) (held : m.inst id = .ok inst) :
    ∀ place ∈ inst.kind.branchPlaces m within, allowed place := by
  intro place leads
  cases kind : inst.kind with
  | continueTo target args =>
    obtain ⟨l, outer, owner, above', isInst, ownerHeld, ownerKind, under⟩ :=
      continues block id inst target above member held (by rw [kind]; rfl)
    obtain ⟨_, results, home⟩ := owner
    cases ownerKind
    simp only [kind, Kind.branchPlaces, ownerHeld, mem_singleton] at leads
    subst leads
    exact opened.continuing target l ⟨outer, _, above', isInst, ownerHeld, rfl, under⟩
  | breakIf | exitIf | exitLoop | exitSwitch | nextIteration =>
    have aims : (∃ construct, place = .merge construct ∧ (within.conditional = some construct ∨
        within.switch = some construct ∨ within.loop = some construct)) ∨ ∃ loop, place = .header loop := by
      simp only [kind, Kind.branchPlaces, mem_flatMap, mem_map, Option.mem_toList, mem_cons] at leads
      grind
    rcases aims with ⟨construct, rfl, around⟩ | ⟨loop, rfl⟩
    · exact opened.merge construct around
    · exact opened.header loop
  | _ => simp [kind, Kind.branchPlaces] at leads

theorem BodiesForward.insts (forward : m.BodiesForward entry depth) (nested : m.Nested entry walked)
    (parented : m.Parented entry) (continues : m.ContinuesInside entry) (above : m.Under entry block)
    (opened : m.Opened entry allowed within block) {insts : List InstId} (listed : insts ⊆ m.instsOf block) :
    m.FlowForward allowed within (m.instFlow (m.bodyFlow depth) block within insts) := by
  induction insts with
  | nil => exact flowForward_stuck
  | cons id rest ih =>
    obtain ⟨member, later⟩ := cons_subset.mp listed
    cases held : m.inst id with
    | error fault =>
      have stuck : m.instFlow (m.bodyFlow depth) block within (id :: rest) = .stuck := by simp [instFlow, held]
      rw [stuck]
      exact flowForward_stuck
    | ok inst =>
      cases opens : m.constructSegments (m.bodyFlow depth) within id inst with
      | some pair =>
        obtain ⟨jump, segments⟩ := pair
        rw [instFlow_construct held opens]
        obtain ⟨merges, branches, inner⟩ := forward.construct nested parented ⟨above, member, held, opened⟩ opens
        have after : .merge id ∈ places ((m.instFlow (m.bodyFlow depth) block within rest).segments (.merge id)
            block within (.results id)) := by simp [Flow.segments]
        refine ⟨fun place leads => ?_, fun place leads => ?_, .append (inner.mono fun place open_ => ?_)
          ((ih later).segments _ _ _ rfl)⟩
        · rw [merges place leads]
          exact .inl (mem_places_append.mpr (.inr after))
        · rcases branches place leads with inside | rfl | open_
          · exact .inl (mem_places_append.mpr (.inl inside))
          · exact .inl (mem_places_append.mpr (.inr after))
          · exact .inr open_
        · rcases open_ with rfl | open_
          · exact .inl after
          · exact .inr open_
      | none =>
        have whole := not_isControl_of_opens opens
        cases ends : inst.kind.isTerminator with
        | true =>
          rw [instFlow_terminator held ends]
          refine ⟨by simp [mergePlaces], fun place leads => .inr ?_, trivial⟩
          exact opened.terminator continues above member held place leads
        | false =>
          rw [instFlow_plain held ends whole]
          have onward := ih later
          exact ⟨onward.merges, onward.branches, onward.rest⟩

theorem bodiesForward (nested : m.Nested entry walked) (parented : m.Parented entry)
    (continues : m.ContinuesInside entry) (depth : Nat) : m.BodiesForward entry depth := by
  induction depth with
  | zero => exact fun _ _ => flowForward_stuck
  | succ depth ih =>
    intro block allowed within above opened
    unfold bodyFlow
    split
    · exact flowForward_stuck
    · rename_i b found
      exact ih.insts nested parented continues above opened (by rw [instsOf_eq found]; exact Subset.refl _)

/-- The basic blocks of a function lead to later ones or to headers of its loops. -/
theorem plan_forward {function : Function} (nested : m.Nested function.entry walked)
    (parented : m.Parented function.entry) (continues : m.ContinuesInside function.entry) :
    m.Forward (fun place => place.header?.isSome = true) (m.plan function) := by
  have opened : m.Opened function.entry (fun place => place.header?.isSome = true) {} function.entry :=
    { merge := by rintro _ (⟨⟨⟩⟩ | ⟨⟨⟩⟩ | ⟨⟨⟩⟩)
      header := fun _ => rfl
      continuing := fun loop l inBody => absurd inBody (not_inBody_entry nested) }
  exact (bodiesForward nested parented continues _ .refl opened).segments _ _ _ rfl

end

end Module
end Shader

namespace Shader.Binary

/-- Labels belong to one block each. A merge names labels of later blocks, and so does a branch, unless it
goes to the header of a loop, where the loop's merge is declared. -/
def FunctionCode.Forward (code : FunctionCode) : Prop :=
  code.labels.Nodup ∧ ∀ before block after, code.blocks = before ++ block :: after → ∀ inst ∈ block.body.toList,
      (∀ target ∈ inst.merges, ∃ other ∈ after, other.label.result = some target) ∧
      ∀ target ∈ inst.branches, (∃ other ∈ after, other.label.result = some target) ∨
        ∃ other ∈ code.blocks, other.label.result = some target ∧
          ∃ declared ∈ other.body.toList, declared.op = .loopMerge

theorem Instruction.caseLabels_flatMap (cases : List (Word × Word)) :
    caseLabels (cases.flatMap fun case => [.literal case.1, .id case.2]) = cases.map Prod.snd := by
  induction cases with
  | nil => rfl
  | cons case rest ih => simp [caseLabels, ih]

/-- Only branches lead to labels. -/
theorem Instruction.branches_nil {inst : Instruction} (plain : inst.op.isTerminator = false) : inst.branches = [] := by
  unfold branches
  split <;> first | rfl | (rename_i op _; rw [op] at plain; cases plain)

theorem Instruction.merges_nil {inst : Instruction} (plain : inst.op.isMerge = false) : inst.merges = [] := by
  unfold merges
  split <;> first | rfl | (rename_i op _; rw [op] at plain; cases plain)

end Shader.Binary

namespace Shader.Lower

open Binary Instruction List Jump

variable {m : Module} {L : Ledger} {heads : List (InstId × Word)} {within : Enclosing}
variable {segment : Segment} {block : BasicBlock} {allowed : Place → Prop} {segments : List Segment}

/-- A branch names the labels of the places that it leads to. -/
theorem BranchesTo.places {names : Place → Word → Prop} {kind : Kind} {code : Instruction}
    (branches : BranchesTo m L names within kind code) : Forall₂ names (kind.branchPlaces m within) code.branches := by
  cases kind with
  | ret value =>
    cases value with
    | none => cases branches; exact .nil
    | some value => obtain ⟨_, _, rfl⟩ := branches; exact .nil
  | breakIf condition aim next exit =>
    obtain ⟨id, loop, merge, header, -, inside, toMerge, toHeader, rfl⟩ := branches
    rw [Kind.branchPlaces, inside]
    exact .cons toMerge (.cons toHeader .nil)
  | continueTo aim args =>
    obtain ⟨⟨_, _, _⟩, l, label, held, rfl, named, rfl⟩ := branches
    rw [Kind.branchPlaces, held]
    exact .cons named .nil
  | exitIf aim args | exitLoop aim args | exitSwitch aim args | nextIteration aim args =>
    obtain ⟨construct, label, inside, named, rfl⟩ := branches
    rw [Kind.branchPlaces, inside]
    exact .cons named .nil
  | _ => cases branches; exact .nil

theorem defaultBlock_mem {id : InstId} {s : Switch} {block : BlockId} (found : defaultBlock id s = .ok block) :
    ∃ case ∈ s.cases, block = case.block := by
  unfold defaultBlock at found
  split at found
  · rename_i case only
    cases found
    exact ⟨case, mem_of_mem_filter (by rw [only]; exact mem_singleton_self case), rfl⟩
  · cases found
  · cases found

/-- The labels that the end of a basic block names are those of the places it leads to. -/
theorem JumpCode.places {jump : Jump} {code : List Instruction}
    (jumps : JumpCode m L (Names L heads) within jump code) :
    ∀ inst ∈ code, (∀ target ∈ inst.merges, ∃ place ∈ jump.mergePlaces, Names L heads place target) ∧
      ∀ target ∈ inst.branches, ∃ place ∈ jump.branchPlaces m within, Names L heads place target := by
  cases jump with
  | terminator id kind =>
    obtain ⟨last, branches, rfl⟩ := jumps
    intro inst member
    rw [mem_singleton.mp member]
    refine ⟨fun target declared => ?_, fun target => forall₂_mem_right branches.places⟩
    have ends := branches.isTerminator
    rw [merges_nil (by cases op : last.op <;> rw [op] at ends <;> first | rfl | cases ends)] at declared
    cases declared
  | conditional id inst c =>
    obtain ⟨merge, condition, whenTrue, whenFalse, merges, -, toTrue, toFalse, rfl⟩ := jumps
    simp [mergeAt, branchOn, Instruction.merges, Instruction.branches, mergePlaces, branchPlaces, *]
  | switch id s =>
    obtain ⟨merge, selector, default, otherwise, targets, merges, -, found, toDefault, cases, rfl⟩ := jumps
    have labels : ∀ target, target = otherwise ∨ target ∈ targets.flatten.map Prod.snd →
        ∃ place ∈ (switch id s).branchPlaces m within, Names L heads place target := by
      rintro target (rfl | member)
      · obtain ⟨case, isCase, rfl⟩ := defaultBlock_mem found
        exact ⟨.block case.block, mem_map_of_mem isCase, toDefault⟩
      · obtain ⟨pair, listed, rfl⟩ := mem_map.mp member
        obtain ⟨pairs, listed', member⟩ := mem_flatten.mp listed
        obtain ⟨case, isCase, label, words, bound, -, rfl⟩ := forall₂_mem_right cases listed'
        obtain ⟨word, -, rfl⟩ := mem_map.mp member
        exact ⟨.block case.block, mem_map_of_mem isCase, bound⟩
    intro inst member
    rcases (by simpa using member : inst = mergeAt merge ∨ inst = selectOn selector otherwise targets.flatten)
      with rfl | rfl
    · simp [mergeAt, Instruction.merges, Instruction.branches, mergePlaces, merges]
    · refine ⟨by simp [selectOn, Instruction.merges], fun target member => labels target ?_⟩
      simpa only [selectOn, Instruction.branches, caseLabels_flatMap, mem_cons] using member
  | head id l =>
    obtain ⟨merge, continuing, label, merges, continues, named, rfl⟩ := jumps
    simp [loopAt, branchTo, Instruction.merges, Instruction.branches, mergePlaces, branchPlaces, *]
  | enter id l | again loop | onward construct =>
    obtain ⟨label, named, rfl⟩ := jumps
    simp [branchTo, Instruction.merges, Instruction.branches, mergePlaces, branchPlaces, *]
  | stuck =>
    cases jumps
    simp [deadEnd, merges, branches]

/-- What a basic block names: labels of places that its segment leads to. -/
theorem SegmentCode.places (laid : SegmentCode m L (Names L heads) segment block) : ∀ inst ∈ block.body.toList,
      (∀ target ∈ inst.merges, ∃ place ∈ segment.jump.mergePlaces, Names L heads place target) ∧
      ∀ target ∈ inst.branches, ∃ place ∈ segment.jump.branchPlaces m segment.within,
        Names L heads place target := by
  obtain ⟨label, phis, codes, last, -, -, joins, plain, jumps, body⟩ := laid
  have idle : ∀ {inst : Instruction}, inst.op.isTerminator = false → inst.op.isMerge = false →
      (∀ target ∈ inst.merges, ∃ place ∈ segment.jump.mergePlaces, Names L heads place target) ∧
      ∀ target ∈ inst.branches, ∃ place ∈ segment.jump.branchPlaces m segment.within,
        Names L heads place target := by
    intro inst open_ whole
    simp [branches_nil open_, merges_nil whole]
  intro inst member
  rw [body, mem_append, mem_append] at member
  rcases member with phi | ordinary | final
  · have op := joins.phis inst phi
    exact idle (by rw [op]; rfl) (by rw [op]; rfl)
  · have op := PlainCode.ordinary plain inst ordinary
    refine idle ?_ ?_ <;> cases same : inst.op <;> rw [same] at op <;> first | rfl | cases op
  · exact jumps.places inst final

theorem forward_header (forward : m.Forward allowed segments) (member : segment ∈ segments) {loop : InstId}
    (isHeader : segment.place = .header loop) :
    ∃ l, segment.jump = .head loop l := by
  induction segments with
  | nil => cases member
  | cons first rest ih =>
    obtain ⟨-, -, headed, later⟩ := forward
    rcases mem_cons.mp member with rfl | member
    · exact headed loop isHeader
    · exact ih later member

/-- What is named in one of the blocks is the label of a place that a later one starts at, or of an allowed
place. -/
theorem forward_code {blocks : List BasicBlock}
    (laid : Forall₂ (SegmentCode m L (Names L heads)) segments blocks) (forward : m.Forward allowed segments)
    {before after : List BasicBlock} (split : blocks = before ++ block :: after)
    {inst : Instruction} (member : inst ∈ block.body.toList) :
    (∀ target ∈ inst.merges, ∃ place, Names L heads place target ∧ (place.header? = none ∧
      allowed place ∨ ∃ other ∈ after, ∃ segment, SegmentCode m L (Names L heads) segment other ∧
        segment.place = place)) ∧
    ∀ target ∈ inst.branches, ∃ place, Names L heads place target ∧ (allowed place ∨
      ∃ other ∈ after, ∃ segment, SegmentCode m L (Names L heads) segment other ∧ segment.place = place) := by
  induction laid generalizing before with
  | nil => cases before <;> cases split
  | @cons segment first rest blocks here later ih =>
    obtain ⟨merges, branches, -, onward⟩ := forward
    cases before with
    | cons other before =>
      cases split
      exact ih onward rfl
    | nil =>
      cases split
      have lies : ∀ place ∈ Module.places rest, ∃ other ∈ after, ∃ segment,
          SegmentCode m L (Names L heads) segment other ∧ segment.place = place := by
        intro place member
        obtain ⟨segment, listed, rfl⟩ := mem_map.mp member
        obtain ⟨other, isBlock, laid⟩ := forall₂_mem_right later.flip listed
        exact ⟨other, isBlock, segment, laid, rfl⟩
      obtain ⟨declared, named⟩ := here.places inst member
      constructor
      · intro target isMerge
        obtain ⟨place, leads, named⟩ := declared target isMerge
        have plain : place.header? = none := by
          cases jump : segment.jump <;> simp [jump, mergePlaces] at leads
          all_goals rcases leads with rfl | rfl <;> rfl
        rcases merges place leads with inside | open_
        · exact ⟨place, named, .inr (lies place inside)⟩
        · exact ⟨place, named, .inl ⟨plain, open_⟩⟩
      · intro target isBranch
        obtain ⟨place, leads, named⟩ := named target isBranch
        exact ⟨place, named, ((branches place leads).imp_left (lies place)).symm⟩

section
variable {state : LowerState} {e : Effect} {function : Function} {code : FunctionCode} {word : Word}
  (planned : Planned m ⟨state, e.loose⟩ function heads code)
include planned

/-- A basic block has the label of the place where it starts. -/
theorem Planned.label_eq (lowering : Lowering m state e) (once : ((m.plan function).map (·.place)).Nodup)
    (laid : SegmentCode m ⟨state, e.loose⟩ (Names ⟨state, e.loose⟩ heads) segment block)
    (named : Names ⟨state, e.loose⟩ heads segment.place word) : block.label.result = some word := by
  obtain ⟨label, -, -, -, named', opens, -⟩ := laid
  rw [opens, lowering.label_unique (planned.heads_nodup once) named named']
  rfl

/-- A header that has a label is planned. -/
theorem Planned.header {loop : InstId} (headed : (loop, word) ∈ heads) :
    ∃ segment ∈ m.plan function, segment.place = .header loop := by
  have listed : loop ∈ headers (m.plan function) := planned.listed ▸ mem_map_of_mem headed
  obtain ⟨segment, member, isHeader⟩ := mem_filterMap.mp listed
  refine ⟨segment, member, ?_⟩
  cases place : segment.place <;> rw [place] at isHeader <;> cases isHeader
  rfl

end

/-- Branches lead forward in functions whose blocks are properly nested. -/
theorem branches_forward {options : Options} {assembly : Assembly} (lowers : m.lower options = .ok assembly)
    (nested : ∀ ref function, m.function ref = .ok function → ∃ walked, m.Nested function.entry walked)
    (ended : ∀ ref function, m.function ref = .ok function → ∀ inner b, m.Under function.entry inner →
      m.block inner = .ok b → m.Ended b.insts)
    (parented : ∀ ref function, m.function ref = .ok function → m.Parented function.entry)
    (continues : ∀ ref function, m.function ref = .ok function → m.ContinuesInside function.entry) :
    ∀ code ∈ assembly.functions.toList, code.Forward := by
  obtain ⟨state, e, -, rfl, lowering, planned⟩ := planned_of_lower lowers ended
  intro code member
  obtain ⟨index, -, function, heads, declared, isCode, planned⟩ := forall₂_mem_right planned member
  obtain ⟨walked, nested⟩ := nested ⟨index⟩ function declared
  obtain ⟨-, once⟩ := nested.plan (ended ⟨index⟩ function declared)
  have forward := Module.plan_forward nested (parented _ _ declared) (continues _ _ declared)
  refine ⟨planned.labels_nodup lowering isCode once, fun before block after split inst member => ?_⟩
  obtain ⟨merges, branches⟩ := forward_code planned.blocks forward split member
  constructor
  · intro target declared
    obtain ⟨place, named, ⟨plain, isHeader⟩ | ⟨other, later, segment, laid, rfl⟩⟩ := merges target declared
    · rw [plain] at isHeader
      cases isHeader
    · exact ⟨other, later, planned.label_eq lowering once laid named⟩
  · intro target leads
    obtain ⟨place, named, isHeader | ⟨other, later, segment, laid, rfl⟩⟩ := branches target leads
    · -- The basic block at the header of a loop is the one that declares its merge.
      obtain ⟨loop, rfl⟩ : ∃ loop, place = .header loop := by
        cases place <;> simp [Place.header?] at isHeader ⊢
      obtain ⟨segment, listed, place⟩ := planned.header named.1
      obtain ⟨other, isBlock, laid⟩ := forall₂_mem_right planned.blocks.flip listed
      refine .inr ⟨other, isBlock, planned.label_eq lowering once laid (place ▸ named), ?_⟩
      obtain ⟨l, jump⟩ := forward_header forward listed place
      obtain ⟨label, phis, codes, last, -, -, -, -, jumps, body⟩ := laid
      rw [jump] at jumps
      obtain ⟨merge, continuing, label, -, -, -, rfl⟩ := jumps
      exact ⟨loopAt merge continuing, by simp [body], rfl⟩
    · exact .inl ⟨other, later, planned.label_eq lowering once laid named⟩

theorem searching_parented (ref : FuncId) (function : Function) (_ : searching.function ref = .ok function) :
    searching.Parented function.entry := by
  intro outer id inner b _ holds found
  obtain ⟨inst, held, owned⟩ := Module.exists_of_mem_blocksOf holds.block
  have parents := Module.forall_inst (P := fun id inst => ∀ block ∈ inst.kind.children,
    ∀ b ∈ searching.blocks[block.index]?, b.parent = some id) (by decide) held
  exact parents inner owned b (Module.block_eq_ok.mp found)

theorem searching_continues (ref : FuncId) (function : Function) (declared : searching.function ref = .ok function) :
    searching.ContinuesInside function.entry := by
  have entry := searching_entry ref function declared
  intro block id inst target _ member held named
  obtain ⟨b, found, member⟩ := Module.exists_of_mem_instsOf member
  have only := Module.forall_block (P := fun block b => ∀ id ∈ b.insts, ∀ inst ∈ searching.insts[id.index]?,
    ∀ loop ∈ inst.kind.continued?, block = ⟨3⟩ ∧ loop = ⟨1⟩) (by decide) found id member inst
    (Module.inst_eq_ok.mp held) target named
  obtain ⟨rfl, rfl⟩ := only
  rw [entry]
  exact ⟨⟨some ⟨2⟩, ⟨3⟩, ⟨4⟩, [⟨10⟩, ⟨11⟩]⟩, ⟨1⟩, _, .refl, by decide, rfl, rfl, .refl⟩

theorem searching_branches_forward : ∃ assembly, searching.lower {} = .ok assembly ∧
    assembly.functions.size = 1 ∧ ∀ code ∈ assembly.functions.toList, code.Forward := by
  obtain ⟨assembly, lowered, size⟩ : ∃ assembly, searching.lower {} = .ok assembly ∧ assembly.functions.size = 1 := by
    decide +kernel
  exact ⟨assembly, lowered, size,
    branches_forward lowered searching_nested searching_ended searching_parented searching_continues⟩

end Shader.Lower
