import Shader.Lower.Constructs
import Shader.Proofs.Walk

/-!
The basic blocks of a function, before anything has an id.

The plan of a function is the list of its basic blocks in the order they are laid out: where each one
starts, which values it joins, the instructions it holds and how it ends. It is read off the nested
blocks of the function and mentions only them, so what is known of the places, of the order and of the
branches of the lowered function can be said of its plan.
-/
namespace Shader

open Lower

variable {id : InstId} {rest : List InstId} {inst : Inst} {home : BlockId}

/-- An instruction that ends its block owns none. -/
theorem Kind.not_isControl {kind : Kind} (ends : kind.isTerminator = true) : kind.isControl = false := by
  cases kind <;> first | rfl | cases ends

/-- Where a basic block starts: with a block of the module, with the header of a loop, or after a
construct. -/
inductive Place where
  | block (id : BlockId)
  | header (loop : InstId)
  | merge (construct : InstId)
  deriving DecidableEq

/-- The loop whose header a place is. -/
def Place.header? : Place → Option InstId
  | .header loop => some loop
  | _ => none

/-- The nearest enclosing construct of each kind. -/
structure Enclosing where
  conditional : Option InstId := none
  switch : Option InstId := none
  loop : Option InstId := none
  deriving DecidableEq

/-- The values that meet at the start of a basic block. -/
inductive Joins where
  | nothing
  | params (block : BlockId)
  | results (construct : InstId)
  deriving DecidableEq

/-- How a basic block ends: with an instruction that ends a block, with a branch into a construct, at the
header of a loop, or with a branch that no instruction stands for. A block that is never left is stuck. -/
inductive Jump where
  | terminator (id : InstId) (kind : Kind)
  | conditional (id : InstId) (inst : Inst) (c : Conditional)
  | switch (id : InstId) (s : Switch)
  | enter (id : InstId) (l : Loop)
  | head (id : InstId) (l : Loop)
  | again (loop : InstId)
  | onward (construct : InstId)
  | stuck
  deriving DecidableEq

/-- A basic block. Its instructions are some of those of the block `home`. -/
structure Segment where
  place : Place
  home : BlockId
  within : Enclosing
  joins : Joins
  insts : List InstId
  jump : Jump
  deriving DecidableEq

/-- The loops whose headers are among the basic blocks. -/
def headers (segments : List Segment) : List InstId := segments.filterMap (·.place.header?)

theorem headers_append (first second : List Segment) : headers (first ++ second) = headers first ++ headers second :=
  List.filterMap_append

/-- The rest of a basic block and the basic blocks after it. -/
structure Flow where
  insts : List InstId
  jump : Jump
  rest : List Segment
  deriving DecidableEq

/-- The basic blocks of a flow, the first of which starts at the given place. -/
def Flow.segments (flow : Flow) (place : Place) (home : BlockId) (within : Enclosing) (joins : Joins) :
    List Segment :=
  ⟨place, home, within, joins, flow.insts, flow.jump⟩ :: flow.rest

/-- A flow that is never left. -/
def Flow.stuck : Flow := ⟨[], .stuck, []⟩

variable {within : Enclosing}

namespace Module

variable (m : Module) (body : Enclosing → BlockId → Flow)

/-- How an empty block ends. -/
def emptyJump (b : Block) : Jump :=
  match b.parent with
  | none => .stuck
  | some parent =>
    match m.inst parent with
    | .error _ => .stuck
    | .ok owner => if owner.results.isEmpty then .stuck else .onward parent

/-- The basic blocks of a block that a construct owns; `body` gives the flow of its instructions. -/
def childSegments (within : Enclosing) (block : BlockId) : List Segment :=
  match m.block block with
  | .error _ => []
  | .ok b =>
    if b.insts.isEmpty then [⟨.block block, block, within, .nothing, [], m.emptyJump b⟩]
    else (body within block).segments (.block block) block within (.params block)

/-- The basic blocks of a branch of a conditional, if it needs any. -/
def branchSegments (within : Enclosing) (inst : Inst) (block : BlockId) : List Segment :=
  match needsBlock m (!inst.results.isEmpty) block with
  | .ok true => m.childSegments body within block
  | _ => []

/-- The basic blocks of the continuing block of a loop. -/
def returnSegments (within : Enclosing) (loop : InstId) (block : BlockId) : List Segment :=
  match m.terminator? block with
  | .ok none => [⟨.block block, block, within, .nothing, [], .again loop⟩]
  | _ => m.childSegments body within block

/-- The basic blocks of a loop, from its initializer to its continuing block. -/
def loopSegments (within : Enclosing) (id : InstId) (l : Loop) : List Segment :=
  l.initializer.toList.flatMap (m.childSegments body within) ++
    ⟨.header id, l.body, within, .params l.body, [], .head id l⟩ ::
    ((body within l.body).segments (.block l.body) l.body within .nothing ++
      m.returnSegments body within id l.continuing)

/-- How a basic block ends at a construct, and the basic blocks of the construct. -/
def constructSegments (within : Enclosing) (id : InstId) (inst : Inst) : Option (Jump × List Segment) :=
  match inst.kind with
  | .conditional c =>
    some (.conditional id inst c,
      [c.whenTrue, c.whenFalse].flatMap (m.branchSegments body { within with conditional := some id } inst))
  | .loop l => some (.enter id l, m.loopSegments body { within with loop := some id } id l)
  | .switch s =>
    some (.switch id s, s.cases.flatMap fun case => m.childSegments body { within with switch := some id } case.block)
  | _ => none

/-- The flow of some instructions of the block `home`. -/
def instFlow (home : BlockId) (within : Enclosing) : List InstId → Flow
  | [] => .stuck
  | id :: rest =>
    let next := instFlow home within rest
    match m.inst id with
    | .error _ => .stuck
    | .ok inst =>
      match m.constructSegments body within id inst with
      | some (jump, segments) =>
        ⟨[], jump, segments ++ next.segments (.merge id) home within (.results id)⟩
      | none =>
        if inst.kind.isTerminator then ⟨[], .terminator id inst.kind, []⟩
        else { next with insts := id :: next.insts }

/-- The flow of the instructions of a block whose constructs nest at most `depth` deep. -/
def bodyFlow : (depth : Nat) → Enclosing → BlockId → Flow
  | 0, _, _ => .stuck
  | depth + 1, within, block =>
    match m.block block with
    | .error _ => .stuck
    | .ok b => m.instFlow (bodyFlow depth) block within b.insts

/-- The basic blocks of a function. -/
def plan (function : Function) : List Segment :=
  (m.bodyFlow (m.blocks.size + 1) {} function.entry).segments (.block function.entry) function.entry {} .nothing

variable {m body}

/-- Only the last instruction of the list ends a block, and it does. -/
def Ended (m : Module) (insts : List InstId) : Prop :=
  ∀ before id after inst, insts = before ++ id :: after → m.inst id = .ok inst →
    (inst.kind.isTerminator = true ↔ after = [])

theorem Ended.head (ended : m.Ended (id :: rest)) (held : m.inst id = .ok inst) :
    inst.kind.isTerminator = true ↔ rest = [] :=
  ended [] id rest inst rfl held

theorem Ended.tail (ended : m.Ended (id :: rest)) : m.Ended rest := by
  intro before last after inst split held
  exact ended (id :: before) last after inst (by rw [split]; rfl) held

theorem ended_nil : m.Ended [] := by
  intro before id after inst split
  cases before <;> cases split

theorem ended_cons : m.Ended (id :: rest) ↔
    (∀ inst ∈ (m.inst id).toOption, inst.kind.isTerminator = true ↔ rest = []) ∧ m.Ended rest := by
  constructor
  · exact fun ended => ⟨fun inst held => ended.head (ok_of_mem_toOption held), ended.tail⟩
  · rintro ⟨first, later⟩ before last after inst split held
    cases before with
    | nil =>
      cases split
      exact first inst (by simp [held, Except.toOption])
    | cons other before =>
      cases split
      exact later before last after inst rfl held

instance decidableEnded : (insts : List InstId) → Decidable (m.Ended insts)
  | [] => .isTrue ended_nil
  | _ :: rest => have := decidableEnded rest; decidable_of_iff _ ended_cons.symm

/-- An empty block goes nowhere but to the place after its construct. -/
theorem emptyJump_cases (b : Block) :
    m.emptyJump b = .stuck ∨ ∃ parent, b.parent = some parent ∧ m.emptyJump b = .onward parent := by
  unfold emptyJump
  split
  · exact .inl rfl
  · split
    · exact .inl rfl
    · split
      · exact .inl rfl
      · exact .inr ⟨_, ‹_›, rfl⟩

theorem constructSegments_isSome : (m.constructSegments body within id inst).isSome = inst.kind.isControl := by
  unfold constructSegments
  cases inst.kind <;> rfl

theorem not_isControl_of_opens (opens : m.constructSegments body within id inst = none) :
    inst.kind.isControl = false := by
  rw [← constructSegments_isSome, opens]
  rfl

theorem instFlow_terminator (held : m.inst id = .ok inst) (ends : inst.kind.isTerminator = true) :
    m.instFlow body home within (id :: rest) = ⟨[], .terminator id inst.kind, []⟩ := by
  have none : m.constructSegments body within id inst = none := by
    rw [← Option.not_isSome_iff_eq_none, constructSegments_isSome, Kind.not_isControl ends]
    exact Bool.false_ne_true
  simp [instFlow, held, none, ends]

theorem instFlow_plain (held : m.inst id = .ok inst) (open_ : inst.kind.isTerminator = false)
    (whole : inst.kind.isControl = false) :
    m.instFlow body home within (id :: rest) =
      { m.instFlow body home within rest with insts := id :: (m.instFlow body home within rest).insts } := by
  have none : m.constructSegments body within id inst = none := by
    rw [← Option.not_isSome_iff_eq_none, constructSegments_isSome, whole]
    exact Bool.false_ne_true
  simp [instFlow, held, none, open_]

theorem instFlow_construct {jump : Jump} {segments : List Segment} (held : m.inst id = .ok inst)
    (opens : m.constructSegments body within id inst = some (jump, segments)) :
    m.instFlow body home within (id :: rest) = ⟨[], jump, segments ++
      (m.instFlow body home within rest).segments (.merge id) home within (.results id)⟩ := by
  simp [instFlow, held, opens]

end Module
end Shader
