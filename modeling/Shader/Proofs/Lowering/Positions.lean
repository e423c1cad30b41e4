import Shader.Proofs.Lowering.BranchTargets

/-!
Where the basic blocks of a plan come from.

A basic block of a plan starts at a block, at the header of a loop or after a construct. From there on it
holds the instructions of its block up to the next one that branches. So the place where a basic block
starts says which instructions it holds, what it joins and which constructs are around it.
-/
namespace Shader

open List Lower

variable {inst : Inst} {id : InstId} {jump : Jump} {block inner : BlockId} {steps : List BlockId}

/-- How a basic block ends at an instruction, if it does. -/
def Inst.jump? (inst : Inst) (id : InstId) : Option Jump :=
  match inst.kind with
  | .conditional c => some (.conditional id inst c)
  | .loop l => some (.enter id l)
  | .switch s => some (.switch id s)
  | kind => if kind.isTerminator then some (.terminator id kind) else none

theorem Inst.jump?_eq_none : inst.jump? id = none ↔ inst.kind.isTerminator = false ∧ inst.kind.isControl = false := by
  unfold Inst.jump?
  cases inst.kind <;> simp [Kind.isTerminator, Kind.isControl]

theorem Inst.jump?_terminator (id : InstId) (ends : inst.kind.isTerminator = true) :
    inst.jump? id = some (.terminator id inst.kind) := by
  unfold Inst.jump?
  cases kind : inst.kind <;> rw [kind] at ends <;> first | rfl | cases ends

theorem Inst.jump?_inst (jumps : inst.jump? id = some jump) : jump.inst? = some id := by
  unfold Inst.jump? at jumps
  split at jumps
  · cases jumps; rfl
  · cases jumps; rfl
  · cases jumps; rfl
  · split at jumps
    · cases jumps; rfl
    · cases jumps

/-- An instruction that ends a basic block without opening a construct ends its block. -/
theorem Inst.of_jump?_terminator {branch : InstId} {kind : Kind}
    (jumps : inst.jump? id = some (.terminator branch kind)) :
    branch = id ∧ kind = inst.kind ∧ inst.kind.isTerminator = true := by
  unfold Inst.jump? at jumps
  split at jumps
  · cases jumps
  · cases jumps
  · cases jumps
  · split at jumps
    · rename_i ends
      cases jumps
      exact ⟨rfl, rfl, ends⟩
    · cases jumps

namespace Module

variable {m : Module} {body : Enclosing → BlockId → Flow}

/-- The instructions before the first one that ends a basic block, and how the basic block ends there. -/
def straight (m : Module) : List InstId → List InstId × Jump
  | [] => ([], .stuck)
  | id :: rest =>
    match m.inst id with
    | .error _ => ([], .stuck)
    | .ok inst =>
      match inst.jump? id with
      | some jump => ([], jump)
      | none => (id :: (straight m rest).1, (straight m rest).2)

theorem straight_jump {rest : List InstId} (held : m.inst id = .ok inst) (jumps : inst.jump? id = some jump) :
    m.straight (id :: rest) = ([], jump) := by
  simp [straight, held, jumps]

theorem straight_plain {rest : List InstId} (held : m.inst id = .ok inst) (plain : inst.jump? id = none) :
    m.straight (id :: rest) = (id :: (m.straight rest).1, (m.straight rest).2) := by
  simp [straight, held, plain]

/-- A flow starts with the instructions up to the first one that branches. -/
theorem instFlow_straight (body : Enclosing → BlockId → Flow) (home : BlockId) (within : Enclosing)
    (insts : List InstId) :
    ((m.instFlow body home within insts).insts, (m.instFlow body home within insts).jump) = m.straight insts := by
  induction insts with
  | nil => rfl
  | cons id rest ih =>
    cases held : m.inst id with
    | error fault => simp [instFlow, straight, held, Flow.stuck]
    | ok inst =>
      cases opens : m.constructSegments body within id inst with
      | some pair =>
        obtain ⟨jump, segments⟩ := pair
        have jumps : inst.jump? id = some jump := by
          unfold constructSegments at opens
          unfold Inst.jump?
          split at opens <;> cases opens <;> simp [*]
        rw [instFlow_construct held opens, straight_jump held jumps]
      | none =>
        have whole := not_isControl_of_opens opens
        cases ends : inst.kind.isTerminator with
        | true => rw [instFlow_terminator held ends, straight_jump held (Inst.jump?_terminator id ends)]
        | false =>
          rw [instFlow_plain held ends whole, straight_plain held (Inst.jump?_eq_none.mpr ⟨ends, whole⟩), ← ih]

/-- Straight code ends at the first instruction that branches, or with the list. -/
theorem straight_split {insts : List InstId} (found : ∀ id ∈ insts, ∃ inst, m.inst id = .ok inst) :
    (∀ id ∈ (m.straight insts).1, ∃ inst, m.inst id = .ok inst ∧ inst.jump? id = none) ∧
      (m.straight insts = (insts, .stuck) ∨ ∃ id later inst, insts = (m.straight insts).1 ++ id :: later ∧
        m.inst id = .ok inst ∧ inst.jump? id = some (m.straight insts).2) := by
  induction insts with
  | nil => exact ⟨by simp [straight], .inl rfl⟩
  | cons id rest ih =>
    obtain ⟨inst, held⟩ := found id (by simp)
    cases jumps : inst.jump? id with
    | some jump =>
      rw [straight_jump held jumps]
      exact ⟨by simp, .inr ⟨id, rest, inst, rfl, held, jumps⟩⟩
    | none =>
      obtain ⟨plain, split⟩ := ih fun other member => found other (by simp [member])
      rw [straight_plain held jumps]
      refine ⟨fun other member => ?_, ?_⟩
      · rcases mem_cons.mp member with rfl | member
        · exact ⟨inst, held, jumps⟩
        · exact plain other member
      · rcases split with all | ⟨last, later, inst', same, held', jumps'⟩
        · exact .inl (by rw [all])
        · exact .inr ⟨last, later, inst', by rw [cons_append, ← same], held', jumps'⟩

/-- A block under the first one, and the nearest constructs around it. -/
inductive Within (m : Module) (entry : BlockId) : BlockId → Enclosing → Prop where
  | entry : Within m entry entry {}
  | child {block inner : BlockId} {within : Enclosing} {id : InstId} {inst : Inst}
      (around : Within m entry block within) (member : id ∈ m.instsOf block) (held : m.inst id = .ok inst)
      (owned : inner ∈ inst.kind.children) : Within m entry inner (within.inside id inst.kind)

variable {entry : BlockId}

theorem Within.under {within : Enclosing} (around : m.Within entry block within) : m.Under entry block := by
  induction around with
  | entry => exact .refl
  | child _ member held owned ih => exact ih.trans (Holds.under ⟨member, by rwa [blocksOf_eq held]⟩)

theorem Under.within (under : m.Under entry block) : ∃ within, m.Within entry block within := by
  induction under with
  | refl => exact ⟨{}, .entry⟩
  | child _ found member held owned ih =>
    obtain ⟨within, around⟩ := ih
    exact ⟨_, .child around (by rwa [instsOf_eq found]) held owned⟩

/-- An instruction, the block it is in and what is around it. -/
structure Sits (m : Module) (entry block : BlockId) (within : Enclosing) (id : InstId) (inst : Inst) : Prop where
  around : m.Within entry block within
  member : id ∈ m.instsOf block
  held : m.inst id = .ok inst

theorem Sits.child {within : Enclosing} (sits : m.Sits entry block within id inst)
    (owned : inner ∈ inst.kind.children) : m.Within entry inner (within.inside id inst.kind) :=
  .child sits.around sits.member sits.held owned

theorem Sits.holds {within : Enclosing} (sits : m.Sits entry block within id inst)
    (owned : inner ∈ inst.kind.children) : m.Holds block id inner :=
  ⟨sits.member, by rwa [blocksOf_eq sits.held]⟩

/-- The nearest constructs around a block are constructs of their kinds. -/
structure Genuine (m : Module) (entry : BlockId) (within : Enclosing) : Prop where
  conditional : ∀ id, within.conditional = some id →
    ∃ block outer inst c, m.Sits entry block outer id inst ∧ inst.kind = .conditional c
  switch : ∀ id, within.switch = some id →
    ∃ block outer inst s, m.Sits entry block outer id inst ∧ inst.kind = .switch s
  loop : ∀ id, within.loop = some id → ∃ block outer inst l, m.Sits entry block outer id inst ∧ inst.kind = .loop l

theorem Within.genuine {within : Enclosing} (around : m.Within entry block within) : m.Genuine entry within := by
  induction around with
  | entry => constructor <;> rintro _ ⟨⟩
  | @child block inner within id inst around member held owned ih =>
    have sits : m.Sits entry block within id inst := ⟨around, member, held⟩
    cases kind : inst.kind with
    | conditional c => exact { ih with conditional := by rintro _ ⟨⟩; exact ⟨block, within, inst, c, sits, kind⟩ }
    | switch s => exact { ih with switch := by rintro _ ⟨⟩; exact ⟨block, within, inst, s, sits, kind⟩ }
    | loop l => exact { ih with loop := by rintro _ ⟨⟩; exact ⟨block, within, inst, l, sits, kind⟩ }
    | _ => exact ih

/-- The basic block that starts at a place with some instructions of a block. -/
def segmentAt (m : Module) (place : Place) (home : BlockId) (within : Enclosing) (joins : Joins)
    (insts : List InstId) : Segment :=
  ⟨place, home, within, joins, (m.straight insts).1, (m.straight insts).2⟩

/-- The basic blocks that the plan of a function may have. -/
inductive Occurs (m : Module) (entry : BlockId) : Segment → Prop where
  | start : Occurs m entry (m.segmentAt (.block entry) entry {} .nothing (m.instsOf entry))
  | child {block inner : BlockId} {within : Enclosing} {id : InstId} {inst : Inst}
      (sits : m.Sits entry block within id inst) (owned : inner ∈ inst.kind.children)
      (other : ∀ l, inst.kind = .loop l → inner ≠ l.body) (inhabited : m.instsOf inner ≠ []) :
      Occurs m entry (m.segmentAt (.block inner) inner (within.inside id inst.kind) (.params inner) (m.instsOf inner))
  | body {block : BlockId} {within : Enclosing} {id : InstId} {inst : Inst} {l : Loop}
      (sits : m.Sits entry block within id inst) (kind : inst.kind = .loop l) :
      Occurs m entry (m.segmentAt (.block l.body) l.body (within.inside id inst.kind) .nothing (m.instsOf l.body))
  | header {block : BlockId} {within : Enclosing} {id : InstId} {inst : Inst} {l : Loop}
      (sits : m.Sits entry block within id inst) (kind : inst.kind = .loop l) :
      Occurs m entry ⟨.header id, l.body, within.inside id inst.kind, .params l.body, [], .head id l⟩
  | after {home : BlockId} {within : Enclosing} {id : InstId} {inst : Inst} {earlier later : List InstId}
      (sits : m.Sits entry home within id inst) (control : inst.kind.isControl = true)
      (split : m.instsOf home = earlier ++ id :: later) :
      Occurs m entry (m.segmentAt (.merge id) home within (.results id) later)
  | empty {block inner : BlockId} {within : Enclosing} {id : InstId} {inst : Inst} {b : Block}
      (sits : m.Sits entry block within id inst) (owned : inner ∈ inst.kind.children)
      (found : m.block inner = .ok b) (empty : b.insts = []) :
      Occurs m entry ⟨.block inner, inner, within.inside id inst.kind, .nothing, [], m.emptyJump b⟩
  | again {block : BlockId} {within : Enclosing} {id : InstId} {inst : Inst} {l : Loop}
      (sits : m.Sits entry block within id inst) (kind : inst.kind = .loop l)
      (unfinished : m.terminator? l.continuing = .ok none) :
      Occurs m entry ⟨.block l.continuing, l.continuing, within.inside id inst.kind, .nothing, [], .again id⟩

theorem Walks.child {depth : Nat} {walked : List BlockId} (walks : m.Walks (depth + 1) block walked)
    (member : id ∈ m.instsOf block) (held : m.inst id = .ok inst) (owned : inner ∈ inst.kind.children) :
    ∃ walked, m.Walks depth inner walked := by
  obtain ⟨b, nested, found, each, rfl⟩ := walks_succ.mp walks
  rw [instsOf_eq found] at member
  obtain ⟨list, -, inst', lists, held', children, -⟩ := forall₂_mem_right each.flip member
  cases held.symm.trans held'
  obtain ⟨walked, -, walks⟩ := forall₂_mem_right children.flip owned
  exact ⟨walked, walks⟩

section
variable {depth : Nat} {walked : List BlockId}

/-- The flows of blocks start with the instructions of the blocks, and basic blocks that may occur follow. -/
def BodiesOccur (m : Module) (entry : BlockId) (depth : Nat) : Prop :=
  ∀ {block within walked}, m.Within entry block within → m.Walks depth block walked →
    ((m.bodyFlow depth within block).insts, (m.bodyFlow depth within block).jump) = m.straight (m.instsOf block) ∧
      ∀ segment ∈ (m.bodyFlow depth within block).rest, m.Occurs entry segment

theorem BodiesOccur.segments (occurs : m.BodiesOccur entry depth) {within : Enclosing}
    (around : m.Within entry block within) (walks : m.Walks depth block walked) {joins : Joins}
    (first : m.Occurs entry (m.segmentAt (.block block) block within joins (m.instsOf block))) :
    ∀ segment ∈ (m.bodyFlow depth within block).segments (.block block) block within joins,
      m.Occurs entry segment := by
  obtain ⟨start, rest⟩ := occurs around walks
  intro segment member
  rcases mem_cons.mp member with rfl | member
  · rw [segmentAt, ← start] at first
    exact first
  · exact rest segment member

variable {block : BlockId} {within : Enclosing} {id : InstId} {inst : Inst}

section
variable (occurs : m.BodiesOccur entry depth)
include occurs

theorem BodiesOccur.child (sits : m.Sits entry block within id inst)
    (walks : m.Walks (depth + 1) block walked) (owned : inner ∈ inst.kind.children)
    (other : ∀ l, inst.kind = .loop l → inner ≠ l.body) :
    ∀ segment ∈ m.childSegments (m.bodyFlow depth) (within.inside id inst.kind) inner, m.Occurs entry segment := by
  obtain ⟨walked, inside⟩ := walks.child sits.member sits.held owned
  obtain ⟨b, found, -⟩ := inside.found .refl
  intro segment member
  unfold childSegments at member
  rw [found] at member
  dsimp only at member
  split at member
  · rename_i empty
    rw [mem_singleton.mp member]
    exact .empty sits owned found (isEmpty_iff.mp empty)
  · rename_i full
    have inhabited : m.instsOf inner ≠ [] := by simpa [instsOf_eq found] using full
    exact occurs.segments (sits.child owned) inside (.child sits owned other inhabited) segment member

theorem BodiesOccur.loop (nested : m.Nested entry walked)
    (sits : m.Sits entry block within id inst) (walks : m.Walks (depth + 1) block steps) {l : Loop}
    (kind : inst.kind = .loop l) :
    ∀ segment ∈ m.loopSegments (m.bodyFlow depth) (within.inside id inst.kind) id l, m.Occurs entry segment := by
  have children : inst.kind.children = l.initializer.toList ++ [l.body, l.continuing] := by rw [kind, Kind.children]
  have once : (l.initializer.toList ++ [l.body, l.continuing]).Nodup := by
    rw [← children, ← blocksOf_eq sits.held]
    exact nested.children_nodup sits.around.under sits.member
  have apart : ∀ l', inst.kind = .loop l' → l.continuing ≠ l'.body := by
    intro l' kind' same
    cases kind.symm.trans kind'
    have two := (nodup_append'.mp once).2.1
    simp [same] at two
  intro segment member
  unfold loopSegments at member
  rcases mem_append.mp member with initial | member
  · obtain ⟨inner, isInitial, member⟩ := mem_flatMap.mp initial
    refine occurs.child sits walks (by rw [children]; exact mem_append_left _ isInitial) ?_ segment member
    intro l' kind' same
    cases kind.symm.trans kind'
    have differs := (nodup_append'.mp once).2.2 isInitial
    simp [same] at differs
  rcases mem_cons.mp member with rfl | member
  · exact .header sits kind
  rcases mem_append.mp member with inBody | back
  · have owned : l.body ∈ inst.kind.children := by simp [children]
    obtain ⟨steps, inside⟩ := walks.child sits.member sits.held owned
    exact occurs.segments (sits.child owned) inside (.body sits kind) segment inBody
  · unfold returnSegments at back
    split at back
    · rename_i unfinished
      rw [mem_singleton.mp back]
      exact .again sits kind unfinished
    · exact occurs.child sits walks (by simp [children]) apart segment back

/-- The basic blocks of a construct. -/
theorem BodiesOccur.construct (nested : m.Nested entry walked)
    (sits : m.Sits entry block within id inst) (walks : m.Walks (depth + 1) block steps) {segments : List Segment}
    (opens : m.constructSegments (m.bodyFlow depth) within id inst = some (jump, segments)) :
    ∀ segment ∈ segments, m.Occurs entry segment := by
  unfold constructSegments at opens
  split at opens
  · rename_i c kind
    cases opens
    have inside : within.inside id inst.kind = { within with conditional := some id } := by rw [kind]; rfl
    rw [← inside]
    intro segment member
    obtain ⟨inner, isBranch, member⟩ := mem_flatMap.mp member
    rw [branchSegments_eq kind] at member
    split at member
    · exact occurs.child sits walks (by rwa [kind]) (by simp [kind]) segment member
    · cases member
  · rename_i l kind
    cases opens
    have inside : within.inside id inst.kind = { within with loop := some id } := by rw [kind]; rfl
    rw [← inside]
    exact occurs.loop nested sits walks kind
  · rename_i s kind
    cases opens
    have inside : within.inside id inst.kind = { within with switch := some id } := by rw [kind]; rfl
    rw [← inside]
    intro segment member
    obtain ⟨case, isCase, member⟩ := mem_flatMap.mp member
    have owned : case.block ∈ inst.kind.children := by
      rw [kind]
      exact mem_map_of_mem isCase
    exact occurs.child sits walks owned (by simp [kind]) segment member
  · cases opens

theorem BodiesOccur.insts (nested : m.Nested entry walked)
    (around : m.Within entry block within) (walks : m.Walks (depth + 1) block steps) {earlier insts : List InstId}
    (split : m.instsOf block = earlier ++ insts) :
    ∀ segment ∈ (m.instFlow (m.bodyFlow depth) block within insts).rest, m.Occurs entry segment := by
  induction insts generalizing earlier with
  | nil => simp [instFlow, Flow.stuck]
  | cons id rest ih =>
    have later : m.instsOf block = (earlier ++ [id]) ++ rest := by simp [split]
    have member : id ∈ m.instsOf block := by simp [split]
    cases held : m.inst id with
    | error fault => simp [instFlow, held, Flow.stuck]
    | ok inst =>
      have sits : m.Sits entry block within id inst := ⟨around, member, held⟩
      cases opens : m.constructSegments (m.bodyFlow depth) within id inst with
      | some pair =>
        obtain ⟨jump, segments⟩ := pair
        have control : inst.kind.isControl = true := by
          rw [← constructSegments_isSome, opens]
          rfl
        rw [instFlow_construct held opens]
        intro segment inside
        rcases mem_append.mp inside with inside | inside
        · exact occurs.construct nested sits walks opens segment inside
        rcases mem_cons.mp inside with rfl | inside
        · have first := Occurs.after sits control split
          rw [segmentAt, ← instFlow_straight (m.bodyFlow depth) block within] at first
          exact first
        · exact ih later segment inside
      | none =>
        have whole := not_isControl_of_opens opens
        cases ends : inst.kind.isTerminator with
        | true => simp [instFlow_terminator held ends]
        | false =>
          rw [instFlow_plain held ends whole]
          exact ih later

end

theorem bodiesOccur (nested : m.Nested entry walked) (depth : Nat) : m.BodiesOccur entry depth := by
  induction depth with
  | zero =>
    intro block within steps _ walks
    cases walks
  | succ depth ih =>
    intro block within steps around walks
    obtain ⟨b, found, -⟩ := walks.found .refl
    have flow : m.bodyFlow (depth + 1) within block = m.instFlow (m.bodyFlow depth) block within (m.instsOf block) := by
      rw [bodyFlow, found, instsOf_eq found]
    rw [flow]
    exact ⟨instFlow_straight _ block within _, ih.insts nested around walks (nil_append _).symm⟩

end

/-- The plan of a function has no other basic blocks. -/
theorem occurs_of_mem_plan {function : Function} {walked : List BlockId} (nested : m.Nested function.entry walked)
    {segment : Segment} (member : segment ∈ m.plan function) : m.Occurs function.entry segment := by
  have occurs : m.BodiesOccur function.entry (m.blocks.size + 1) := bodiesOccur nested _
  exact occurs.segments .entry nested.walks .start segment member

end Module
end Shader
