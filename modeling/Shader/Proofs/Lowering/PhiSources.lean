import Shader.Proofs.Lowering.EmptyBlocks
import Shader.Proofs.Lowering.Positions

/-!
The sources of a phi are the blocks that branch to it.

A phi reads its sources off a list of branches that the module keeps: the exits of a construct, or the
branches into the body or the continuing block of a loop. The label of a source is computed from where the
branch stands in its block, and the branch itself is laid out by other means. Where the lists hold the
branches that they should, the two agree: a phi has one source for every block that branches to its own,
and no other, and takes from it what the branch of that block carries.
-/
namespace Shader

open List Lower Option

variable {inst : Inst} {id branch : InstId} {block : BlockId} {segment : Segment}
variable {earlier later plain : List InstId} {home block' : BlockId} {within' : Enclosing} {l : Loop} {α β : Type}
  {related : α → β → Prop} {as : List α} {bs : List β}

namespace Kind

/-- The nearest construct of the kind that a branch has to name. -/
def nearest (within : Enclosing) : Kind → Option InstId
  | .exitIf .. => within.conditional
  | .exitSwitch .. => within.switch
  | .exitLoop .. | .breakIf .. | .nextIteration .. | .continueTo .. => within.loop
  | _ => none

/-- The construct that a branch leaves. -/
def left? : Kind → Option InstId
  | .exitIf target _ | .exitLoop target _ | .exitSwitch target _ | .breakIf _ target _ _ => some target
  | _ => none

/-- The loop that a branch starts over. -/
def repeated? : Kind → Option InstId
  | .nextIteration target _ | .breakIf _ target _ _ => some target
  | _ => none

end Kind

namespace Module

/-- The list holds, each once, the branches under the first block that name the construct. -/
def Lists (m : Module) (entry : BlockId) (named? : Kind → Option InstId) (id : InstId) (branches : List InstId) :
    Prop :=
  branches.Nodup ∧ ∀ branch, branch ∈ branches ↔
    ∃ block within inst, m.Sits entry block within branch inst ∧ named? inst.kind = some id

/-- Branches name the nearest construct of their kind and are listed in it; only the body and the continuing
block of a loop have parameters, and a loop passes the first values to its body from an initializer. -/
structure Registered (m : Module) (entry : BlockId) : Prop where
  placed : ∀ block within id inst, m.Sits entry block within id inst → inst.block = block
  innermost : ∀ block within id inst, m.Sits entry block within id inst → inst.kind.target? = inst.kind.nearest within
  exits : ∀ block within id inst, m.Sits entry block within id inst → inst.kind.isControl = true →
    m.Lists entry Kind.left? id inst.kind.exits
  repeats : ∀ block within id inst l b, m.Sits entry block within id inst → inst.kind = .loop l →
    m.block l.body = .ok b → m.Lists entry Kind.repeated? id b.inbound
  continues : ∀ block within id inst l b, m.Sits entry block within id inst → inst.kind = .loop l →
    m.block l.continuing = .ok b → m.Lists entry Kind.continued? id b.inbound
  params : ∀ block within id inst inner b, m.Sits entry block within id inst → inner ∈ inst.kind.children →
    m.block inner = .ok b → b.params ≠ [] → ∃ l, inst.kind = .loop l ∧ (inner = l.body ∨ inner = l.continuing)
  initialized : ∀ block within id inst l b, m.Sits entry block within id inst → inst.kind = .loop l →
    m.block l.body = .ok b → b.params ≠ [] → l.initializer ≠ none

end Module

/-- The values that meet at the start of a basic block. -/
def Joins.values (m : Module) : Joins → List ValueId
  | .nothing => []
  | .params block =>
    match m.block block with
    | .ok b => b.params
    | .error _ => []
  | .results construct =>
    match m.inst construct with
    | .ok inst => inst.results
    | .error _ => []

/-- The branches that bring values to the start of a basic block. -/
def Joins.branches (m : Module) : Joins → List InstId
  | .nothing => []
  | .params block =>
    match m.block block with
    | .ok b => b.inbound
    | .error _ => []
  | .results construct =>
    match m.inst construct with
    | .ok inst => inst.kind.exits
    | .error _ => []

/-- What a branch brings to the start of a basic block. -/
def Joins.args : Joins → Kind → List Value
  | .nothing => fun _ => []
  | .params _ => Kind.branchArgs
  | .results _ => Kind.exitArgs

/-- What has the label of a place. Headers have labels of their own. -/
def Place.key? : Place → Option Key
  | .block id => some (.label id)
  | .merge construct => some (.merge construct)
  | .header _ => none

namespace Module

variable {m : Module} {entry : BlockId} {walked : List BlockId}

theorem branchPlace_eq {c : Conditional} (kind : inst.kind = .conditional c) :
    branchPlace m id inst block = if m.keeps inst block then .block block else .merge id := by
  simp only [branchPlace, keeps, kind]
  cases needsBlock m (!inst.results.isEmpty) block with
  | error fault => rfl
  | ok needs => cases needs <;> rfl

theorem before?_split (first : id ∉ earlier) : before? (earlier ++ id :: later) id = some earlier := by
  unfold before?
  rw [if_pos (by simp), takeWhile_append_of_pos]
  · simp
  · intro other member
    have differs : other ≠ id := fun same => first (same ▸ member)
    simpa using differs

/-- After straight code the last construct is the one before it. -/
theorem lastControl?_append (earlier : List InstId)
    (whole : ∀ id ∈ plain, ∃ inst, m.inst id = .ok inst ∧ inst.jump? id = none) :
    lastControl? m (earlier ++ plain) = lastControl? m earlier := by
  have none : lastControl? m plain = .ok none := by
    induction plain with
    | nil => rfl
    | cons id rest ih =>
      obtain ⟨inst, held, plain⟩ := whole id (by simp)
      have control := (Inst.jump?_eq_none.mp plain).2
      have later := ih fun other member => whole other (by simp [member])
      simp [lastControl?, later, held, control]
  induction earlier with
  | nil => exact none
  | cons id rest ih => simp [lastControl?, ih]

theorem lastControl?_concat (earlier : List InstId) (held : m.inst id = .ok inst)
    (control : inst.kind.isControl = true) : lastControl? m (earlier ++ [id]) = .ok (some id) := by
  induction earlier with
  | nil => simp [lastControl?, held, control]
  | cons first rest ih => simp [lastControl?, ih]

/-- A branch of a basic block, and what control leaves from at the branch: the place where the basic block
starts. -/
structure Leaves (m : Module) (entry : BlockId) (segment : Segment) (branch : InstId) (inst : Inst) : Prop where
  sits : m.Sits entry segment.home segment.within branch inst
  ends : inst.kind.isTerminator = true
  last : ∃ earlier, m.instsOf segment.home = earlier ++ [branch]
  leaves : ∃ key, segment.place.key? = some key ∧ leavingKey m branch = .ok key

theorem Leaves.terminator (leaves : m.Leaves entry segment branch inst) :
    m.terminator? segment.home = .ok (some branch) := by
  obtain ⟨earlier, split⟩ := leaves.last
  obtain ⟨b, found, -⟩ := exists_of_mem_instsOf leaves.sits.member
  rw [instsOf_eq found] at split
  simp [terminator?, found, split, leaves.sits.held, leaves.ends]

/-- Straight code at the end of a block leaves from the place before it. -/
theorem leavingKey_straight (placed : inst.block = home)
    (ended : m.Ended (m.instsOf home)) (split : m.instsOf home = earlier ++ (plain ++ [branch]))
    (whole : ∀ id ∈ plain, ∃ inst, m.inst id = .ok inst ∧ inst.jump? id = none) (held : m.inst branch = .ok inst)
    (ends : inst.kind.isTerminator = true) : leavingKey m branch = standingKey m home earlier := by
  obtain ⟨b, located, -⟩ : ∃ b, m.block home = .ok b ∧ branch ∈ b.insts := exists_of_mem_instsOf (by simp [split])
  rw [instsOf_eq located] at split ended
  have first : branch ∉ earlier ++ plain := by
    intro member
    obtain ⟨before, after, same⟩ := append_of_mem member
    have shape : b.insts = before ++ branch :: (after ++ [branch]) := by
      rw [split, ← append_assoc, same]
      simp
    have last := (ended before branch (after ++ [branch]) inst shape held).mp ends
    simp at last
  have before : before? b.insts branch = some (earlier ++ plain) := by
    rw [split, ← append_assoc]
    exact before?_split first
  simp only [leavingKey, held, placed, located, before, bind, Except.bind]
  simp only [standingKey, lastControl?_append earlier whole]

/-- A basic block goes on with the instructions of its block from some place on, unless it has none of its own: it is
the header of a loop, or belongs to a block that is not finished. -/
theorem Occurs.shape (occurs : m.Occurs entry segment) :
    (∃ place home within joins earlier later key, segment = m.segmentAt place home within joins later ∧
      m.Within entry home within ∧ m.instsOf home = earlier ++ later ∧ place.key? = some key ∧
      standingKey m home earlier = .ok key) ∨
    segment.insts = [] ∧ segment.jump.inst? = none ∧
      ((∃ block within id inst l, m.Sits entry block within id inst ∧ inst.kind = .loop l ∧ segment.jump = .head id l) ∨
        ∃ inner, m.Under entry inner ∧ m.terminator? inner = .ok none) := by
  cases occurs with
  | start => exact .inl ⟨_, _, _, _, [], _, _, rfl, .entry, rfl, rfl, rfl⟩
  | child sits owned => exact .inl ⟨_, _, _, _, [], _, _, rfl, sits.child owned, rfl, rfl, rfl⟩
  | body sits kind =>
    exact .inl ⟨_, _, _, _, [], _, _, rfl, sits.child (by simp [kind, Kind.children]), rfl, rfl, rfl⟩
  | header sits kind => exact .inr ⟨rfl, rfl, .inl ⟨_, _, _, _, _, sits, kind, rfl⟩⟩
  | @after home within id inst earlier later sits control split =>
    refine .inl ⟨_, _, _, _, earlier ++ [id], later, _, rfl, sits.around, by simp [split], rfl, ?_⟩
    simp [standingKey, lastControl?_concat earlier sits.held control]
  | @empty _ inner _ _ _ b sits owned found empty =>
    refine .inr ⟨rfl, ?_, .inr ⟨inner, (sits.child owned).under, by simp [terminator?, found, empty]⟩⟩
    rcases m.emptyJump_cases b with stuck | ⟨parent, -, onward⟩
    · exact congrArg Jump.inst? stuck
    · exact congrArg Jump.inst? onward
  | again sits kind unfinished =>
    exact .inr ⟨rfl, rfl, .inr ⟨_, (sits.child (by simp [kind, Kind.children])).under, unfinished⟩⟩

theorem Occurs.leaves (occurs : m.Occurs entry segment) (nested : m.Nested entry walked) (ended : EndedBelow m entry)
    (registered : m.Registered entry) {kind : Kind} (jumps : segment.jump = .terminator branch kind) :
    ∃ inst, kind = inst.kind ∧ m.Leaves entry segment branch inst := by
  rcases occurs.shape with ⟨place, home, within, joins, earlier, later, key, rfl, around, split, keyed, stands⟩ | other
  · obtain ⟨b, found, insts⟩ := nested.walks.found around.under
    have ends' := ended home b around.under found
    rw [← instsOf_eq found] at insts ends'
    have present : ∀ id ∈ later, ∃ inst, m.inst id = .ok inst :=
      fun id member => insts id (by rw [split]; exact mem_append_right _ member)
    obtain ⟨plain, all | ⟨id, rest, inst, ends, held, jumps'⟩⟩ := straight_split present
    · simp [segmentAt, all] at jumps
    · have jumps : (m.straight later).2 = .terminator branch kind := jumps
      rw [jumps] at jumps'
      obtain ⟨rfl, rfl, terminates⟩ := Inst.of_jump?_terminator jumps'
      have last : rest = [] := by
        refine (ends' (earlier ++ (m.straight later).1) branch rest inst ?_ held).mp terminates
        rw [split, append_assoc, ← ends]
      subst last
      have sits : m.Sits entry home within branch inst := ⟨around, by rw [split, ends]; simp, held⟩
      have whole : m.instsOf home = earlier ++ ((m.straight later).1 ++ [branch]) := by rw [← ends, split]
      refine ⟨inst, rfl, sits, terminates, ⟨earlier ++ (m.straight later).1, by simp [whole, segmentAt]⟩, key,
        keyed, ?_⟩
      rw [← stands]
      exact leavingKey_straight (registered.placed _ _ _ _ sits) ends' whole plain held terminates
  · obtain ⟨-, silent, -⟩ := other
    rw [jumps] at silent
    cases silent

/-- Every block below the first one ends in its only terminator. -/
def Finished (m : Module) (entry : BlockId) : Prop :=
  ∀ block b, m.Under entry block → m.block block = .ok b → b.insts ≠ [] ∧ m.Ended b.insts

theorem Finished.ended (finished : m.Finished entry) : EndedBelow m entry :=
  fun block b under found => (finished block b under found).2

theorem Finished.terminator (finished : m.Finished entry) (nested : m.Nested entry walked)
    (under : m.Under entry block) : m.terminator? block ≠ .ok none := by
  obtain ⟨b, found, insts⟩ := nested.walks.found under
  obtain ⟨inhabited, ended⟩ := finished block b under found
  obtain ⟨before, last, split⟩ := (eq_nil_or_concat b.insts).resolve_left inhabited
  rw [concat_eq_append] at split
  obtain ⟨inst, held⟩ := insts last (by simp [split])
  have ends := (ended before last [] inst split held).mpr rfl
  simp [terminator?, found, split, held, ends]

theorem segmentAt_carries (nested : m.Nested entry walked) {place : Place} {within : Enclosing}
    {joins : Joins} (around : m.Within entry home within) (listed : later ⊆ m.instsOf home) :
    (∀ id ∈ (m.segmentAt place home within joins later).insts, ∃ inst, m.inst id = .ok inst ∧ inst.jump? id = none) ∧
      ((m.segmentAt place home within joins later).jump = .stuck ∨ ∃ id inst, m.Sits entry home within id inst ∧
        inst.jump? id = some (m.segmentAt place home within joins later).jump) := by
  obtain ⟨b, found, insts⟩ := nested.walks.found around.under
  rw [← instsOf_eq found] at insts
  have present : ∀ id ∈ later, ∃ inst, m.inst id = .ok inst := fun id member => insts id (listed member)
  obtain ⟨plain, all | ⟨id, rest, inst, split, held, jumps⟩⟩ := straight_split present
  · exact ⟨plain, .inl (by simp [segmentAt, all])⟩
  · exact ⟨plain, .inr ⟨id, inst, ⟨around, listed (by rw [split]; simp), held⟩, jumps⟩⟩

/-- What a basic block carries out: instructions that do not branch, and then one that does, unless it ends in a
branch that no instruction stands for. -/
theorem Occurs.carries (occurs : m.Occurs entry segment) (nested : m.Nested entry walked) :
    (∀ id ∈ segment.insts, ∃ inst, m.inst id = .ok inst ∧ inst.jump? id = none) ∧ (segment.jump.inst? = none ∨
        ∃ id inst, m.Sits entry segment.home segment.within id inst ∧ inst.jump? id = some segment.jump) := by
  rcases occurs.shape with ⟨place, home, within, joins, earlier, later, key, rfl, around, split, -⟩ | ⟨none, silent, -⟩
  · exact (segmentAt_carries nested around (by simp [split])).imp_right (.imp_left (congrArg Jump.inst?))
  · exact ⟨by simp [none], .inl silent⟩

/-- In a finished function only the headers of loops end in a branch that no instruction stands for. -/
theorem Occurs.jumps (occurs : m.Occurs entry segment) (nested : m.Nested entry walked) (finished : m.Finished entry) :
    segment.jump = .stuck ∨
      (∃ id inst, m.Sits entry segment.home segment.within id inst ∧ inst.jump? id = some segment.jump) ∨
      ∃ block within id inst l, m.Sits entry block within id inst ∧ inst.kind = .loop l ∧
        segment.jump = .head id l := by
  rcases occurs.shape with
    ⟨place, home, within, joins, earlier, later, key, rfl, around, split, -⟩ | ⟨-, -, head | ⟨inner, under, unfinished⟩⟩
  · exact (segmentAt_carries nested around (by simp [split])).2.imp_right .inl
  · exact .inr (.inr head)
  · exact absurd unfinished (finished.terminator nested under)

/-- A basic block and the branches that lead to it: they are those that name a construct, and they are listed.
The basic blocks that end in them are laid out. -/
structure Met (m : Module) (entry : BlockId) (segment : Segment) (named? : Kind → Option InstId) (id : InstId) :
    Prop where
  ends : ∀ kind, named? kind = some id → kind.isTerminator = true
  lists : m.Lists entry named? id (segment.joins.branches m)
  leads : ∀ block within branch inst, m.Sits entry block within branch inst →
    (segment.place ∈ inst.kind.branchPlaces m within ↔ named? inst.kind = some id)
  kept : ∀ block within branch inst, m.Sits entry block within branch inst → named? inst.kind = some id →
    ¬ m.LeftOut entry block

/-- A left out block has no branch but the one out of its conditional. -/
theorem LeftOut.exits {within : Enclosing} (leftOut : m.LeftOut entry block) (registered : m.Registered entry)
    (sits : m.Sits entry block within branch inst) :
    ∃ outer around id owner args, m.Sits entry outer around id owner ∧ owner.results = [] ∧
      inst.kind = .exitIf id args := by
  obtain ⟨outer, id, owner, c, under, isInst, held, kind, silent, branch', idle⟩ := leftOut
  obtain ⟨around, above⟩ := under.within
  have owned : block ∈ owner.kind.children := by rwa [kind]
  have owns : m.Sits entry outer around id owner := ⟨above, isInst, held⟩
  rcases idle with none | ⟨only, inst', target, args, only', held', exits⟩
  · have member := sits.member
    simp [none] at member
  · have member := sits.member
    simp only [only', mem_singleton] at member
    subst member
    cases held'.symm.trans sits.held
    have nearest := registered.innermost block _ branch inst ⟨owns.child owned, sits.member, sits.held⟩
    simp only [exits, Kind.target?, Kind.nearest, kind, Enclosing.inside, some.injEq] at nearest
    exact ⟨outer, around, id, owner, args, owns, silent, by rw [exits, nearest]⟩

section
variable {block : BlockId} {within : Enclosing} {id : InstId} {inst : Inst}

theorem Sits.unique {inst' : Inst}
    (sits : m.Sits entry block within id inst) (sits' : m.Sits entry block' within' id inst') : inst = inst' := by
  cases sits.held.symm.trans sits'.held
  rfl

theorem Sits.owner {id' : InstId} {inst' : Inst} {inner : BlockId}
    (sits : m.Sits entry block within id inst) (nested : m.Nested entry walked)
    (sits' : m.Sits entry block' within' id' inst') (owned : inner ∈ inst.kind.children)
    (owned' : inner ∈ inst'.kind.children) : id = id' ∧ inst = inst' := by
  obtain ⟨-, rfl⟩ := nested.owner_unique sits.around.under sits'.around.under (sits.holds owned) (sits'.holds owned')
  exact ⟨rfl, sits.unique sits'⟩

theorem Sits.loop_nodup (sits : m.Sits entry block within id inst) (nested : m.Nested entry walked)
    (kind : inst.kind = .loop l) : l.initializer ≠ some l.continuing ∧ l.body ≠ l.continuing := by
  have once : inst.kind.children.Nodup := by
    rw [← blocksOf_eq sits.held]
    exact nested.children_nodup sits.around.under sits.member
  rw [kind, Kind.children] at once
  obtain ⟨-, two, apart⟩ := nodup_append'.mp once
  constructor
  · intro same
    exact apart (a := l.continuing) (by simp [same]) (by simp)
  · intro same
    simp [same] at two

section
variable (registered : m.Registered entry) (sits : m.Sits entry block within id inst)
include registered sits

/-- A branch leads past the construct that it leaves, and to the header of the loop that it repeats. -/
theorem Registered.leads (target : InstId) :
    (.merge target ∈ inst.kind.branchPlaces m within ↔ inst.kind.left? = some target) ∧
      (.header target ∈ inst.kind.branchPlaces m within ↔ inst.kind.repeated? = some target) := by
  have nearest := registered.innermost block within id inst sits
  cases kind : inst.kind with
  | continueTo =>
    simp only [Kind.branchPlaces, Kind.left?, Kind.repeated?]
    split <;> simp
  | exitIf | exitLoop | exitSwitch | breakIf | nextIteration =>
    simp only [kind, Kind.target?, Kind.nearest] at nearest
    simp [Kind.branchPlaces, Kind.left?, Kind.repeated?, ← nearest, eq_comm]
  | _ => simp [Kind.branchPlaces, Kind.left?, Kind.repeated?]

theorem Registered.results (control : inst.kind.isControl = true) (results : inst.results ≠ [])
    (place : segment.place = .merge id) (joins : segment.joins = .results id) : m.Met entry segment Kind.left? id where
  ends kind := by cases kind <;> simp [Kind.left?, Kind.isTerminator]
  lists := by
    have listed := registered.exits block within id inst sits control
    simpa [joins, Joins.branches, sits.held] using listed
  leads block' within' branch inst' sits' := place ▸ (registered.leads sits' id).1
  kept block' within' branch inst' sits' left leftOut := by
    obtain ⟨_, _, id', owner, args, owns, silent, exits⟩ := leftOut.exits registered sits'
    simp only [exits, Kind.left?, some.injEq] at left
    subst left
    cases sits.unique owns
    exact results silent

theorem Registered.repeated (kind : inst.kind = .loop l) {b : Block} (found : m.block l.body = .ok b)
    (place : segment.place = .header id) (joins : segment.joins = .params l.body) :
    m.Met entry segment Kind.repeated? id where
  ends kind := by cases kind <;> simp [Kind.repeated?, Kind.isTerminator]
  lists := by
    have listed := registered.repeats block within id inst l b sits kind found
    simpa [joins, Joins.branches, found] using listed
  leads block' within' branch inst' sits' := place ▸ (registered.leads sits' id).2
  kept block' within' branch inst' sits' repeats leftOut := by
    obtain ⟨_, _, id', owner, args, owns, silent, exits⟩ := leftOut.exits registered sits'
    simp [exits, Kind.repeated?] at repeats

theorem Registered.continued (nested : m.Nested entry walked) (kind : inst.kind = .loop l) {b : Block}
    (found : m.block l.continuing = .ok b) (place : segment.place = .block l.continuing)
    (joins : segment.joins = .params l.continuing) : m.Met entry segment Kind.continued? id where
  ends kind := by cases kind <;> simp [Kind.continued?, Kind.isTerminator]
  lists := by
    have listed := registered.continues block within id inst l b sits kind found
    simpa [joins, Joins.branches, found] using listed
  leads block' within' branch inst' sits' := by
    have nearest := registered.innermost block' within' branch inst' sits'
    rw [place]
    cases kind' : inst'.kind with
    | continueTo target args =>
      simp only [kind', Kind.target?, Kind.nearest] at nearest
      obtain ⟨_, _, loop, l', isLoop, loopKind⟩ := sits'.around.genuine.loop target nearest.symm
      have held := isLoop.held
      obtain ⟨_, results, home⟩ := loop
      cases loopKind
      simp only [Kind.branchPlaces, held, mem_singleton, Place.block.injEq, Kind.continued?, some.injEq]
      constructor
      · intro same
        have owned : l.continuing ∈ inst.kind.children := by simp [kind, Kind.children]
        have owned' : l.continuing ∈ (Kind.loop l').children := by simp [same, Kind.children]
        exact (sits.owner nested isLoop owned owned').1.symm
      · rintro rfl
        cases sits.unique isLoop
        cases kind
        rfl
    | _ => simp [Kind.branchPlaces, Kind.continued?]
  kept block' within' branch inst' sits' continues leftOut := by
    obtain ⟨_, _, id', owner, args, owns, silent, exits⟩ := leftOut.exits registered sits'
    simp [exits, Kind.continued?] at continues

end

/-- Where the basic block before an instruction leads: along the branch that the instruction is, to a block that
it owns, or past it. -/
theorem Sits.leads (sits : m.Sits entry block within id inst) (nested : m.Nested entry walked)
    (ended : EndedBelow m entry) {jump : Jump} (jumps : inst.jump? id = some jump) {place : Place}
    (leads : place ∈ jump.branchPlaces m within) :
    jump = .terminator id inst.kind ∨
      (∃ inner ∈ inst.kind.children, place = .block inner ∧ ∀ l, inst.kind = .loop l → l.initializer = some inner) ∨
      (inst.results = [] ∧ place = .merge id) ∨
      ∃ l, inst.kind = .loop l ∧ l.initializer = none ∧ place = .header id := by
  unfold Inst.jump? at jumps
  split at jumps
  · rename_i c kind
    cases jumps
    obtain ⟨inner, isBranch, rfl⟩ : ∃ inner ∈ [c.whenTrue, c.whenFalse], place = branchPlace m id inst inner := by
      simpa [Jump.branchPlaces] using leads
    have owned : inner ∈ inst.kind.children := by rwa [kind]
    have under := (sits.child owned).under
    obtain ⟨b, found, insts⟩ := nested.walks.found under
    have kept := keeps_eq_false_iff kind found (ended inner b under found) insts
    rw [branchPlace_eq kind]
    cases keeps : m.keeps inst inner with
    | true => exact .inr (.inl ⟨inner, owned, rfl, by simp [kind]⟩)
    | false => exact .inr (.inr (.inl ⟨(kept.mp keeps).1, rfl⟩))
  · rename_i l kind
    cases jumps
    have same : place = entryPlace id l := by simpa [Jump.branchPlaces] using leads
    unfold entryPlace at same
    split at same
    · exact .inr (.inr (.inr ⟨l, kind, ‹_›, same⟩))
    · rename_i inner initializer
      refine .inr (.inl ⟨inner, by simp [kind, Kind.children, initializer], same, fun l' kind' => ?_⟩)
      cases kind.symm.trans kind'
      exact initializer
  · rename_i s kind
    cases jumps
    obtain ⟨case, isCase, rfl⟩ := mem_map.mp leads
    refine .inr (.inl ⟨case.block, ?_, rfl, by simp [kind]⟩)
    rw [kind]
    exact mem_map_of_mem isCase
  · split at jumps
    · cases jumps
      exact .inl rfl
    · cases jumps

end

/-- A basic block where values meet, and the construct whose branches bring them. No basic block leads there
but those that end in a branch. -/
theorem Occurs.met (occurs : m.Occurs entry segment) (nested : m.Nested entry walked) (finished : m.Finished entry)
    (registered : m.Registered entry) (values : segment.joins.values m ≠ []) :
    (∃ named? id, m.Met entry segment named? id) ∧ ∀ other, m.Occurs entry other →
      segment.place ∈ other.jump.branchPlaces m other.within → ∃ branch kind, other.jump = .terminator branch kind := by
  -- Jumps are looked at where they stand; what is left to refute are the ways into a construct.
  have only (heads : ∀ block within id inst l, m.Sits entry block within id inst → inst.kind = .loop l →
        segment.place ≠ .block l.body)
      (others : ∀ block within id inst, m.Sits entry block within id inst →
        ¬ ((∃ inner ∈ inst.kind.children, segment.place = .block inner ∧
            ∀ l, inst.kind = .loop l → l.initializer = some inner) ∨
          (inst.results = [] ∧ segment.place = .merge id) ∨
          ∃ l, inst.kind = .loop l ∧ l.initializer = none ∧ segment.place = .header id)) :
      ∀ other, m.Occurs entry other → segment.place ∈ other.jump.branchPlaces m other.within →
        ∃ branch kind, other.jump = .terminator branch kind := by
    intro other occurs leads
    rcases occurs.jumps nested finished with stuck | ⟨id, inst, sits, jumps⟩ | ⟨_, _, id, inst, l, sits, kind, jumps⟩
    · simp [stuck, Jump.branchPlaces] at leads
    · exact ⟨id, inst.kind, (sits.leads nested finished.ended jumps leads).resolve_right (others _ _ _ _ sits)⟩
    · rw [jumps] at leads
      exact absurd (mem_singleton.mp leads) (heads _ _ _ _ _ sits kind)
  cases occurs with
  | start => simp [segmentAt, Joins.values] at values
  | body => simp [segmentAt, Joins.values] at values
  | empty => simp [Joins.values] at values
  | again => simp [Joins.values] at values
  | @after home within id inst earlier later sits control split =>
    have results : inst.results ≠ [] := by simpa [segmentAt, Joins.values, sits.held] using values
    refine ⟨⟨_, id, registered.results sits control results rfl rfl⟩, only (by simp [segmentAt]) ?_⟩
    rintro _ _ id' inst' sits' (⟨inner, -, same, -⟩ | ⟨silent, same⟩ | ⟨l, -, -, same⟩)
    · cases same
    · cases same
      cases sits.unique sits'
      exact results silent
    · cases same
  | @header block within id inst l sits kind =>
    obtain ⟨b, found, -⟩ := nested.walks.found (sits.child (by simp [kind, Kind.children] : l.body ∈ _)).under
    have params : b.params ≠ [] := by simpa [Joins.values, found] using values
    refine ⟨⟨_, id, registered.repeated sits kind found rfl rfl⟩, only (by simp) ?_⟩
    rintro _ _ id' inst' sits' (⟨inner, -, same, -⟩ | ⟨silent, same⟩ | ⟨l', kind', direct, same⟩)
    · cases same
    · cases same
    · cases same
      cases sits.unique sits'
      cases kind.symm.trans kind'
      exact registered.initialized _ _ _ _ _ _ sits kind found params direct
  | @child block inner within id inst sits owned other inhabited =>
    obtain ⟨b, found, -⟩ := nested.walks.found (sits.child owned).under
    have params : b.params ≠ [] := by simpa [segmentAt, Joins.values, found] using values
    obtain ⟨l, kind, which⟩ := registered.params _ _ _ _ _ _ sits owned found params
    obtain rfl := which.resolve_left (other l kind)
    have apart := sits.loop_nodup nested kind
    refine ⟨⟨_, id, registered.continued sits nested kind found rfl rfl⟩, only ?_ ?_⟩
    · intro _ _ id' inst' l' sits' kind' same
      have same : l.continuing = l'.body := Place.block.inj same
      obtain ⟨rfl, rfl⟩ := sits.owner nested sits' owned (by simp [kind', Kind.children, same])
      cases kind.symm.trans kind'
      exact apart.2 same.symm
    · rintro _ _ id' inst' sits' (⟨inner, owned', same, isFirst⟩ | ⟨silent, same⟩ | ⟨l', kind', direct, same⟩)
      · obtain rfl : l.continuing = inner := Place.block.inj same
        obtain ⟨rfl, rfl⟩ := sits.owner nested sits' owned owned'
        exact apart.1 (isFirst l kind)
      · cases same
      · cases same

/-- The branches that are listed end basic blocks of the plan. -/
theorem Met.planned {function : Function} {named? : Kind → Option InstId}
    (met : m.Met function.entry segment named? id) (nested : m.Nested function.entry walked)
    (ended : EndedBelow m function.entry) (listed : branch ∈ segment.joins.branches m) :
    ∃ source ∈ m.plan function, ∃ kind, source.jump = .terminator branch kind := by
  obtain ⟨block, within, inst, sits, names⟩ := (met.lists.2 branch).mp listed
  obtain ⟨covers, -⟩ := nested.plan ended
  have laid : block ∈ m.emitted (m.blocks.size + 1) function.entry := by
    by_contra absent
    have member := nested.mem_iff.mpr sits.around.under
    exact met.kept block within branch inst sits names (leftOut_of_walked nested.walks ended member absent)
  have lowered : branch ∈ loweredIn (m.plan function) block := by
    rw [covers.lowered, if_pos laid]
    exact sits.member
  obtain ⟨source, inside, lowered⟩ := mem_flatMap.mp lowered
  have planned := mem_of_mem_filter inside
  obtain ⟨plain, jumps⟩ := (occurs_of_mem_plan nested planned).carries nested
  have ends := Inst.jump?_terminator branch (met.ends inst.kind names)
  refine ⟨source, planned, ?_⟩
  rcases mem_append.mp lowered with early | last
  · obtain ⟨inst', held', none⟩ := plain branch early
    cases sits.held.symm.trans held'
    rw [ends] at none
    cases none
  · rcases jumps with none | ⟨id', inst', sits', jumps⟩
    · simp [none] at last
    · rw [Inst.jump?_inst jumps] at last
      cases mem_toList.mp last
      cases sits.unique sits'
      exact ⟨inst.kind, some.inj (jumps.symm.trans ends)⟩

end Module

theorem forall₂_zip (each : Forall₂ related as bs) : Forall₂ (fun a b => (a, b) ∈ as.zip bs ∧ related a b) as bs :=
  forall₂_iff_zip.mpr ⟨each.length_eq, fun member => ⟨member, (forall₂_iff_zip.mp each).2 member⟩⟩

theorem nodup_of_forall₂ (each : Forall₂ related as bs) (once : as.Nodup)
    (apart : ∀ a ∈ as, ∀ a' ∈ as, ∀ b, related a b → related a' b → a = a') : bs.Nodup := by
  induction each with
  | nil => exact .nil
  | @cons a b as bs here each ih =>
    obtain ⟨absent, once⟩ := nodup_cons.mp once
    refine nodup_cons.mpr ⟨fun listed => ?_, ih once fun a' member a'' member' =>
      apart a' (by simp [member]) a'' (by simp [member'])⟩
    obtain ⟨a', member, there⟩ := forall₂_mem_right each listed
    rw [apart a (by simp) a' (by simp [member]) b here there] at absent
    exact absent member

/-- Members that are paired with nothing but the same thing are the same, if nothing is paired twice. -/
theorem eq_of_forall₂ (each : Forall₂ related as bs) (once : bs.Nodup) {first second : α} {b : β} (one : first ∈ as)
    (two : second ∈ as) (only : ∀ other, related first other → other = b)
    (only' : ∀ other, related second other → other = b) : first = second := by
  induction each with
  | nil => cases one
  | @cons a c as bs here each ih =>
    have absent := (nodup_cons.mp once).1
    rcases mem_cons.mp one with rfl | inside <;> rcases mem_cons.mp two with rfl | inside'
    · rfl
    · obtain ⟨other, listed, there⟩ := forall₂_mem_right each.flip inside'
      rw [only _ here, ← only' _ there] at absent
      exact absurd listed absent
    · obtain ⟨other, listed, there⟩ := forall₂_mem_right each.flip inside
      rw [only' _ here, ← only _ there] at absent
      exact absurd listed absent
    · exact ih (nodup_cons.mp once).2 inside inside'

end Shader

namespace Shader.Binary

/-- The block with one label branches to the block with the other. -/
def FunctionCode.Leads (code : FunctionCode) (source target : Word) : Prop :=
  ∃ block ∈ code.blocks, block.label.result = some source ∧ ∃ inst ∈ block.body.toList, target ∈ inst.branches

end Shader.Binary

namespace Shader.Lower

open Binary Instruction List

variable {m : Module} {L : Ledger}
variable {segment : Segment} {word : Word}
variable {names : Place → Word → Prop} {block : BasicBlock} {walked : List BlockId}

/-- A phi joins one of the values that meet, and has a source for each branch that brings one. -/
structure JoinsAt (m : Module) (L : Ledger) (joins : Joins) (phi : Instruction) (index : Nat) : Prop where
  value : ∃ value id, (joins.values m)[index]? = some value ∧ phi.result = some id ∧
    (Key.value value, id) ∈ L.state.bindings
  brings : ∃ pairs, Forall₂ (Brings m L.state joins.args index) (joins.branches m) pairs ∧ phi.sources.Perm pairs

/-- The conditionals whose results meet have no empty branches. -/
def Joins.Inhabited (m : Module) : Joins → Prop
  | .results construct => ∀ inst, m.inst construct = .ok inst →
      ∀ block ∈ implicitExits inst.kind, isEmptyBlock m block = false
  | _ => True

theorem inhabited_joins {entry : BlockId} (occurs : m.Occurs entry segment)
    (full : ∀ block within id inst c, m.Sits entry block within id inst → inst.kind = .conditional c →
      ∀ inner ∈ [c.whenTrue, c.whenFalse], isEmptyBlock m inner = false) : Joins.Inhabited m segment.joins := by
  cases occurs with
  | @after home within id inst earlier later sits control split =>
    intro inst' held inner implicit
    cases sits.held.symm.trans held
    cases kind : inst.kind with
    | conditional c => exact full _ _ _ _ c sits kind inner (by simpa [kind, implicitExits] using implicit)
    | _ => simp [kind, implicitExits] at implicit
  | _ => trivial

theorem JoinCode.joinsAt {joins : Joins} {phis : List Instruction} (joined : JoinCode m L joins phis)
    (inhabited : Joins.Inhabited m joins) {phi : Instruction} (member : phi ∈ phis) :
    ∃ index, JoinsAt m L joins phi index := by
  cases joins with
  | nothing =>
    cases joined
    cases member
  | params block =>
    obtain ⟨b, found, each⟩ := joined
    obtain ⟨⟨value, index⟩, listed, ty, id, pairs, bound, brings, rfl⟩ := forall₂_mem_right each member
    refine ⟨index, ⟨value, id, ?_, rfl, bound⟩, pairs, ?_, by rw [sources_joining]⟩
    · simpa [Joins.values, found] using mem_zipIdx_iff_getElem?.mp listed
    · simpa [Joins.branches, Joins.args, found] using brings
  | results construct =>
    obtain ⟨inst, held, each⟩ := joined
    obtain ⟨⟨value, index⟩, isResult, ty, id, pairs, listed, undefined, bound, brings, perm, implicit, rfl⟩ :=
      forall₂_mem_right each member
    have none : (implicitExits inst.kind).filter (isEmptyBlock m) = [] := by
      simpa using inhabited inst held
    rw [none] at implicit
    cases implicit
    refine ⟨index, ⟨value, id, ?_, rfl, bound⟩, pairs, ?_, by rwa [sources_joining, append_nil]⟩
    · simpa [Joins.values, held] using mem_zipIdx_iff_getElem?.mp isResult
    · simpa [Joins.branches, Joins.args, held] using brings

/-- The phis of a basic block are those that join values at its start. -/
theorem SegmentCode.phi_mem (laid : SegmentCode m L names segment block) : ∃ phis, JoinCode m L segment.joins phis ∧
      ∀ phi ∈ block.body.toList, phi.op = .phi → phi ∈ phis := by
  obtain ⟨phis, joins, parts⟩ := laid.parts
  refine ⟨phis, joins, fun phi member isPhi => (parts phi member).resolve_right fun other => ?_⟩
  simp [isPhi, Opcode.isOrdinary, Opcode.isMerge, Opcode.isTerminator] at other

/-- The labels that a phi of a basic block is paired with are those of the blocks that branch to it, each once,
and the value is what the branch at the end of that block carries. -/
def PhisMatch (m : Module) (L : Ledger) (segments : List Segment) (code : FunctionCode) : Prop :=
  ∀ segment block, (segment, block) ∈ segments.zip code.blocks → ∀ phi ∈ block.body.toList, phi.op = .phi →
    ∃ label, ∃ index : Nat, ∃ value id, block.label.result = some label ∧
      (segment.joins.values m)[index]? = some value ∧
      phi.result = some id ∧ (Key.value value, id) ∈ L.state.bindings ∧
      (phi.sources.map Prod.snd).Nodup ∧
      (∀ source, source ∈ phi.sources.map Prod.snd ↔ code.Leads source label) ∧
      ∀ pair ∈ phi.sources, ∃ origin basic branch inst arg, (origin, basic) ∈ segments.zip code.blocks ∧
        basic.label.result = some pair.2 ∧ origin.jump = .terminator branch inst.kind ∧
        m.inst branch = .ok inst ∧ m.terminator? origin.home = .ok (some branch) ∧
        (segment.joins.args inst.kind)[index]? = some arg ∧ Resolves arg pair.1 L.state

section
variable {state : LowerState} {e : Effect} (lowering : Lowering m state e) {function : Function}
  {heads : List (InstId × Word)} {code : FunctionCode} (planned : Planned m ⟨state, e.loose⟩ function heads code)
  (isCode : code ∈ e.functions) (once : ((m.plan function).map (·.place)).Nodup)

include planned once lowering

/-- A phi takes from a branch what the branch carries, along with the label of the block that ends in it. -/
theorem Planned.brings (nested : m.Nested function.entry walked)
    (ended : EndedBelow m function.entry) (registered : m.Registered function.entry) {origin : Segment}
    {basic : BasicBlock} (laid : SegmentCode m ⟨state, e.loose⟩ (Names ⟨state, e.loose⟩ heads) origin basic)
    (member : origin ∈ m.plan function) {branch : InstId} {kind : Kind} (jumps : origin.jump = .terminator branch kind)
    {args : Kind → List Value} {index : Nat} {pair : Word × Word} (brings : Brings m state args index branch pair) :
    Names ⟨state, e.loose⟩ heads origin.place pair.2 ∧ basic.label.result = some pair.2 ∧
      ∃ inst arg, kind = inst.kind ∧ m.Leaves function.entry origin branch inst ∧
        (args inst.kind)[index]? = some arg ∧ Resolves arg pair.1 state := by
  obtain ⟨inst, same, leaves⟩ := (Module.occurs_of_mem_plan nested member).leaves nested ended registered jumps
  obtain ⟨inst', arg, held, carries, resolved, key, leaving, bound⟩ := brings
  cases leaves.sits.held.symm.trans held
  obtain ⟨key', keyed, leaving'⟩ := leaves.leaves
  cases leaving.symm.trans leaving'
  have named : Names ⟨state, e.loose⟩ heads origin.place pair.2 := by
    cases place : origin.place with
    | block id => rw [place] at keyed; cases keyed; exact bound
    | merge id => rw [place] at keyed; cases keyed; exact bound
    | header id => rw [place] at keyed; cases keyed
  exact ⟨named, planned.label_eq lowering once laid named, inst, arg, same, leaves, carries, resolved⟩

include isCode

/-- Basic blocks with one label are the same. -/
theorem Planned.segment_unique {first second : Segment} (one : first ∈ m.plan function)
    (two : second ∈ m.plan function) (named : Names ⟨state, e.loose⟩ heads first.place word)
    (named' : Names ⟨state, e.loose⟩ heads second.place word) : first = second := by
  have unique := planned.heads_nodup once
  exact eq_of_forall₂ (SegmentCode.labels planned.blocks).1 (planned.labels_nodup lowering isCode once) one two
    (fun other there => lowering.label_unique unique there named)
    (fun other there => lowering.label_unique unique there named')

/-- A label belongs to one place. -/
theorem Planned.place_unique {first second : Place} (one : Names ⟨state, e.loose⟩ heads first word)
    (two : Names ⟨state, e.loose⟩ heads second word) : first = second := by
  by_cases free : word ∈ e.loose
  · have headed : ∀ place, Names ⟨state, e.loose⟩ heads place word →
        ∃ segment ∈ m.plan function, segment.place = place := by
      intro place named
      cases place with
      | block id => exact absurd free (lowering.loose_apart named rfl)
      | merge id => exact absurd free (lowering.loose_apart named rfl)
      | header loop => exact planned.header named.1
    obtain ⟨segment, member, rfl⟩ := headed first one
    obtain ⟨segment', member', rfl⟩ := headed second two
    rw [planned.segment_unique lowering isCode once member member' one two]
  · exact lowering.place_unique one two free

/-- The phis of a planned function match the branches to their blocks. -/
theorem Planned.phisMatch (nested : m.Nested function.entry walked)
    (finished : m.Finished function.entry) (registered : m.Registered function.entry) :
    PhisMatch m ⟨state, e.loose⟩ (m.plan function) code := by
  have ended := finished.ended
  have labels := planned.heads_nodup once
  have laid := forall₂_zip planned.blocks
  intro segment block paired phi member isPhi
  have listed := (of_mem_zip paired).1
  have here := (forall₂_iff_zip.mp planned.blocks).2 paired
  have occurs := Module.occurs_of_mem_plan nested listed
  obtain ⟨phis, joined, isJoin⟩ := here.phi_mem
  have inhabited : Joins.Inhabited m segment.joins := by
    refine inhabited_joins occurs fun block within id inst c sits kind inner isBranch => ?_
    have under := (sits.child (by rwa [kind] : inner ∈ inst.kind.children)).under
    obtain ⟨b, found, -⟩ := nested.walks.found under
    simpa [isEmptyBlock, found] using (finished inner b under found).1
  obtain ⟨label, -, -, -, named, opens, -⟩ := here
  obtain ⟨index, ⟨value, id, isValue, result, bound⟩, pairs, brings, perm⟩ :=
    joined.joinsAt inhabited (isJoin phi member isPhi)
  have values : segment.joins.values m ≠ [] := fun none => by simp [none] at isValue
  obtain ⟨⟨named?, target, met⟩, only⟩ := occurs.met nested finished registered values
  -- A branch that brings a value ends a basic block, whose label it brings along.
  have source : ∀ branch pair, branch ∈ segment.joins.branches m →
      Brings m state segment.joins.args index branch pair → ∃ origin basic inst arg,
        (origin, basic) ∈ (m.plan function).zip code.blocks ∧ origin.jump = .terminator branch inst.kind ∧
        Names ⟨state, e.loose⟩ heads origin.place pair.2 ∧ basic.label.result = some pair.2 ∧
        m.Leaves function.entry origin branch inst ∧ (segment.joins.args inst.kind)[index]? = some arg ∧
        Resolves arg pair.1 state := by
    intro branch pair isBranch brings
    obtain ⟨origin, inPlan, kind, jumps⟩ := met.planned nested ended isBranch
    obtain ⟨basic, -, paired, laid⟩ := forall₂_mem_right laid.flip inPlan
    obtain ⟨named, label, inst, arg, rfl, leaves, carries, resolved⟩ :=
      planned.brings lowering once nested ended registered laid inPlan jumps brings
    exact ⟨origin, basic, inst, arg, paired, jumps, named, label, leaves, carries, resolved⟩
  refine ⟨label, index, value, id, by rw [opens]; rfl, isValue, result, bound, ?_, fun from_ => ⟨?_, ?_⟩, ?_⟩
  · have each : Forall₂ (fun branch word => ∃ pair : Word × Word, word = pair.2 ∧
        Brings m state segment.joins.args index branch pair) (segment.joins.branches m) (pairs.map Prod.snd) :=
      forall₂_map_right_iff.mpr (brings.imp fun _ pair brings => ⟨pair, rfl, brings⟩)
    refine (perm.map Prod.snd).nodup_iff.mpr (nodup_of_forall₂ each met.lists.1 ?_)
    rintro first isFirst second isSecond _ ⟨pair, rfl, brings⟩ ⟨pair', same, brings'⟩
    obtain ⟨origin, _, _, _, paired, jumps, named, -⟩ := source first pair isFirst brings
    obtain ⟨origin', _, _, _, paired', jumps', named', -⟩ := source second pair' isSecond brings'
    rw [same] at named
    cases planned.segment_unique lowering isCode once (of_mem_zip paired).1 (of_mem_zip paired').1 named named'
    exact (Jump.terminator.inj (jumps.symm.trans jumps')).1
  · intro isSource
    obtain ⟨pair, isPair, rfl⟩ := mem_map.mp isSource
    obtain ⟨branch, isBranch, brings⟩ := forall₂_mem_right brings (perm.subset isPair)
    obtain ⟨origin, basic, inst, arg, paired, jumps, -, isLabel, leaves, -⟩ := source branch pair isBranch brings
    obtain ⟨_, _, inst', sits, names⟩ := (met.lists.2 branch).mp isBranch
    cases sits.unique leaves.sits
    have leads := (met.leads _ _ _ _ leaves.sits).mpr names
    obtain ⟨_, phis, codes, last, -, -, -, -, ends, body⟩ := (forall₂_iff_zip.mp planned.blocks).2 paired
    rw [jumps] at ends
    obtain ⟨final, branches, rfl⟩ := ends
    obtain ⟨word, isTarget, named'⟩ := forall₂_mem_right branches.places.flip leads
    cases lowering.label_unique labels named named'
    exact ⟨basic, (of_mem_zip paired).2, isLabel, final, by simp [body], isTarget⟩
  · rintro ⟨basic, isBlock, isLabel, inst, isInst, isTarget⟩
    obtain ⟨origin, inPlan, laid⟩ := forall₂_mem_right planned.blocks isBlock
    obtain ⟨place, leads, named'⟩ := (laid.places inst isInst).2 label isTarget
    cases planned.place_unique lowering isCode once named named'
    obtain ⟨branch, kind, jumps⟩ := only origin (Module.occurs_of_mem_plan nested inPlan) leads
    obtain ⟨inst, rfl, leaves⟩ := (Module.occurs_of_mem_plan nested inPlan).leaves nested ended registered jumps
    rw [jumps] at leads
    have names := (met.leads _ _ _ _ leaves.sits).mp leads
    have isBranch := (met.lists.2 branch).mpr ⟨_, _, _, leaves.sits, names⟩
    obtain ⟨pair, isPair, brings⟩ := forall₂_mem_right brings.flip isBranch
    obtain ⟨-, isLabel', -⟩ := planned.brings lowering once nested ended registered laid inPlan jumps brings
    cases isLabel.symm.trans isLabel'
    exact mem_map_of_mem (perm.symm.subset isPair)
  · intro pair isPair
    obtain ⟨branch, isBranch, brings⟩ := forall₂_mem_right brings (perm.subset isPair)
    obtain ⟨origin, basic, inst, arg, paired, jumps, -, label, leaves, carries, resolved⟩ :=
      source branch pair isBranch brings
    exact ⟨origin, basic, branch, inst, arg, paired, label, jumps, leaves.sits.held, leaves.terminator, carries,
      resolved⟩

end

/-- In a function whose blocks are finished and whose branches are listed as they should be, every phi has one
source for each block that branches to its own. -/
theorem phis_match_branches {options : Options} {assembly : Assembly} (lowers : m.lower options = .ok assembly)
    (nested : ∀ ref function, m.function ref = .ok function → ∃ walked, m.Nested function.entry walked)
    (finished : ∀ ref function, m.function ref = .ok function → m.Finished function.entry)
    (registered : ∀ ref function, m.function ref = .ok function → m.Registered function.entry) :
    ∃ state loose, (emitModule m options).run { pool := m.constants } = .ok ((), state) ∧ assembly = state.out ∧
      Forall₂ (fun index code => ∃ function heads, m.function ⟨index⟩ = .ok function ∧
        Forall₂ (SegmentCode m ⟨state, loose⟩ (Names ⟨state, loose⟩ heads)) (m.plan function) code.blocks ∧
        code.labels.Nodup ∧ PhisMatch m ⟨state, loose⟩ (m.plan function) code)
        (range m.functions.size) assembly.functions.toList := by
  obtain ⟨state, e, ran, rfl, lowering, planned⟩ :=
    planned_of_lower lowers fun ref function declared => (finished ref function declared).ended
  refine ⟨state, e.loose, ran, rfl, planned.imp ?_⟩
  rintro index code ⟨function, heads, declared, isCode, planned⟩
  obtain ⟨walked, nested⟩ := nested ⟨index⟩ function declared
  have finished := finished ⟨index⟩ function declared
  obtain ⟨-, once⟩ := nested.plan finished.ended
  exact ⟨function, heads, declared, planned.blocks, planned.labels_nodup lowering isCode once,
    planned.phisMatch lowering isCode once nested finished (registered ⟨index⟩ function declared)⟩

end Shader.Lower

namespace Shader

/-- The loop that an instruction is. -/
def Kind.loop? : Kind → Option Loop
  | .loop l => some l
  | _ => none

theorem Kind.loop?_eq_some {kind : Kind} {l : Loop} : kind.loop? = some l ↔ kind = .loop l := by
  cases kind <;> simp [loop?]

namespace Module

open List

variable {m : Module} {entry : BlockId} {walked : List BlockId}

/-- The branches in some blocks that name a construct. -/
def naming (m : Module) (blocks : List BlockId) (named? : Kind → Option InstId) (id : InstId) : List InstId :=
  (blocks.flatMap m.instsOf).filter fun branch => (m.inst branch).toOption.any fun inst => named? inst.kind = some id

theorem Nested.lists (nested : m.Nested entry walked) {named? : Kind → Option InstId} {id : InstId}
    {branches : List InstId} (same : branches.Perm (m.naming walked named? id)) :
    m.Lists entry named? id branches := by
  refine ⟨same.nodup_iff.mpr (nested.insts.filter _), fun branch => ?_⟩
  rw [same.mem_iff, naming, mem_filter, mem_flatMap]
  constructor
  · rintro ⟨⟨block, isBlock, member⟩, names⟩
    obtain ⟨inst, found, names⟩ := (Option.any_eq_true _ _).mp names
    obtain ⟨within, around⟩ := (nested.mem_iff.mp isBlock).within
    exact ⟨block, within, inst, ⟨around, member, ok_of_mem_toOption found⟩, of_decide_eq_true names⟩
  · rintro ⟨block, within, inst, sits, names⟩
    refine ⟨⟨block, nested.mem_iff.mpr sits.around.under, sits.member⟩, ?_⟩
    simp [sits.held, Except.toOption, names]

/-- What the lists of a construct should hold, and its blocks have parameters as they may. -/
def Tallies (m : Module) (walked : List BlockId) (id : InstId) (inst : Inst) : Prop :=
  (inst.kind.isControl = true → inst.kind.exits.Perm (m.naming walked Kind.left? id)) ∧
  (∀ l ∈ inst.kind.loop?, (∀ b ∈ (m.block l.body).toOption, b.inbound.Perm (m.naming walked Kind.repeated? id) ∧
      (b.params ≠ [] → l.initializer ≠ none)) ∧
    ∀ b ∈ (m.block l.continuing).toOption, b.inbound.Perm (m.naming walked Kind.continued? id)) ∧
  ∀ inner ∈ inst.kind.children, ∀ b ∈ (m.block inner).toOption, b.params ≠ [] →
    ∃ l ∈ inst.kind.loop?, inner = l.body ∨ inner = l.continuing

instance (id : InstId) (inst : Inst) : Decidable (m.Tallies walked id inst) := by
  unfold Tallies
  infer_instance

/-- That branches are listed as they should be can be seen along the walk. -/
theorem Nested.registered (nested : m.Nested entry walked) (around : BlockId → Enclosing) (start : around entry = {})
    (each : ∀ block ∈ walked, ∀ id ∈ m.instsOf block, ∀ inst ∈ (m.inst id).toOption,
      (∀ inner ∈ inst.kind.children, around inner = (around block).inside id inst.kind) ∧ inst.block = block ∧
      inst.kind.target? = inst.kind.nearest (around block) ∧ m.Tallies walked id inst) : m.Registered entry := by
  have listed : ∀ {ε α : Type} {outcome : Except ε α} {a : α}, outcome = .ok a → a ∈ outcome.toOption := by
    rintro _ _ _ a rfl
    rfl
  have same : ∀ {block : BlockId} {within : Enclosing}, m.Within entry block within → within = around block := by
    intro block within inside
    induction inside with
    | entry => exact start.symm
    | child inside member held owned ih =>
      have known := (each _ (nested.mem_iff.mpr inside.under) _ member _ (listed held)).1 _ owned
      rw [known, ih]
  have known : ∀ {block : BlockId} {within : Enclosing} {id : InstId} {inst : Inst},
      m.Sits entry block within id inst → inst.block = block ∧ inst.kind.target? = inst.kind.nearest within ∧
        m.Tallies walked id inst := by
    intro block within id inst sits
    rw [same sits.around]
    exact (each block (nested.mem_iff.mpr sits.around.under) id sits.member inst (listed sits.held)).2
  exact
    { placed := fun block within id inst sits => (known sits).1
      innermost := fun block within id inst sits => (known sits).2.1
      exits := fun block within id inst sits control => nested.lists ((known sits).2.2.1 control)
      repeats := fun block within id inst l b sits kind found =>
        nested.lists (((known sits).2.2.2.1 l (kind ▸ rfl)).1 b (listed found)).1
      continues := fun block within id inst l b sits kind found =>
        nested.lists (((known sits).2.2.2.1 l (kind ▸ rfl)).2 b (listed found))
      params := fun block within id inst inner b sits owned found params => by
        obtain ⟨l, isLoop, either⟩ := (known sits).2.2.2.2 inner owned b (listed found) params
        exact ⟨l, Kind.loop?_eq_some.mp isLoop, either⟩
      initialized := fun block within id inst l b sits kind found =>
        (((known sits).2.2.2.1 l (kind ▸ rfl)).1 b (listed found)).2 }

end Module

namespace Lower

open Binary List

/-- The constructs around the blocks of the function that searches. -/
def searchingAround (block : BlockId) : Enclosing :=
  match block.index with
  | 2 | 3 | 4 => { loop := some ⟨1⟩ }
  | 5 | 6 => { loop := some ⟨1⟩, conditional := some ⟨5⟩ }
  | 7 | 8 => { loop := some ⟨1⟩, switch := some ⟨6⟩ }
  | _ => {}

theorem searching_finished (ref : FuncId) (function : Function) (declared : searching.function ref = .ok function) :
    searching.Finished function.entry := by
  intro block b under found
  refine ⟨?_, searching_ended ref function declared block b under found⟩
  rw [searching_entry ref function declared, ← searching_walk.mem_iff] at under
  have inhabited : ∀ block ∈ [⟨1⟩, ⟨2⟩, ⟨3⟩, ⟨5⟩, ⟨6⟩, ⟨7⟩, ⟨8⟩, ⟨4⟩], searching.instsOf block ≠ [] := by decide
  rw [← Module.instsOf_eq found]
  exact inhabited block under

theorem searching_registered (ref : FuncId) (function : Function) (declared : searching.function ref = .ok function) :
    searching.Registered function.entry := by
  rw [searching_entry ref function declared]
  exact searching_walk.registered searchingAround rfl (by decide +kernel)

theorem searching_phis_match_branches : ∃ assembly, searching.lower {} = .ok assembly ∧
    ((assembly.functions.toList.flatMap FunctionCode.blocks).flatMap fun block =>
      (block.body.toList.filter fun inst => inst.op = .phi).map fun phi => phi.sources.length) = [2, 2, 1, 2] ∧
    ∃ state loose, (emitModule searching {}).run { pool := searching.constants } = .ok ((), state) ∧
      assembly = state.out ∧
      Forall₂ (fun index code => ∃ function heads, searching.function ⟨index⟩ = .ok function ∧
        Forall₂ (SegmentCode searching ⟨state, loose⟩ (Names ⟨state, loose⟩ heads)) (searching.plan function)
          code.blocks ∧
        code.labels.Nodup ∧ PhisMatch searching ⟨state, loose⟩ (searching.plan function) code)
        (range searching.functions.size) assembly.functions.toList := by
  obtain ⟨assembly, lowered, phis⟩ : ∃ assembly, searching.lower {} = .ok assembly ∧
      ((assembly.functions.toList.flatMap FunctionCode.blocks).flatMap fun block =>
        (block.body.toList.filter fun inst => inst.op = .phi).map fun phi => phi.sources.length) = [2, 2, 1, 2] := by
    decide +kernel
  exact ⟨assembly, lowered, phis, phis_match_branches lowered searching_nested searching_finished searching_registered⟩

end Lower
end Shader
