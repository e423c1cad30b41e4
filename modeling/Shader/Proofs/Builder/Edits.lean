import Mathlib.Logic.Relation
import Shader.Builder.Call
import Shader.Proofs.Walk

/-!
What building does to a module.

A step of building changes the tables of the module by edits of few kinds: a block, a function, a parameter or an
instruction is added, or a construct is given one more block. An instruction that leaves a construct or goes on in a
loop is registered there by the same edit that adds it. A refused step has made some of these edits as well, so what
holds of every module under construction is a matter of the edits alone.
-/
namespace Shader

open Array

variable {m : Module} {id target : InstId} {kind : Kind} {expected : ConstructKind} {inst : Inst} {b : Builder}
variable {exit : InstId} {l : Loop}

/-- The construct that a branch leaves, and the kind that it has to have. -/
def Kind.leaves? : Kind → Option (ConstructKind × InstId)
  | .exitIf target _ => some (.conditional, target)
  | .exitLoop target _ | .breakIf _ target _ _ => some (.loop, target)
  | .exitSwitch target _ => some (.switch, target)
  | _ => none

/-- The kind of a construct and the branches that are registered with it. -/
def Kind.construct? : Kind → Option (ConstructKind × List InstId)
  | .conditional c => some (.conditional, c.exits)
  | .loop l => some (.loop, l.exits)
  | .switch s => some (.switch, s.exits)
  | _ => none

namespace Kind

variable {found : ConstructKind × InstId}

/-- The construct that a branch names, and the kind that it has to have. -/
def aims? : Kind → Option (ConstructKind × InstId)
  | .exitIf target _ => some (.conditional, target)
  | .exitLoop target _ | .breakIf _ target _ _ | .continueTo target _ | .nextIteration target _ => some (.loop, target)
  | .exitSwitch target _ => some (.switch, target)
  | _ => none

/-- Which construct an instruction is. -/
def sort? (kind : Kind) : Option ConstructKind := kind.construct?.map Prod.fst

theorem aims?_of_leaves? (leaves : kind.leaves? = some found) : kind.aims? = some found := by
  cases kind <;> simp_all [leaves?, aims?]

theorem target?_eq_aims? (kind : Kind) : kind.target? = kind.aims?.map Prod.snd := by
  cases kind <;> rfl

/-- A branch is no construct. -/
theorem branch_of_aims? (aims : kind.aims? = some found) : kind.children = [] ∧ kind.construct? = none := by
  cases kind <;> first | exact ⟨rfl, rfl⟩ | cases aims

/-- A branch can be registered with constructs of its kind only. -/
theorem sort?_of_withExit {new : Kind} (fits : Build.withExit expected exit kind = some new) :
    kind.sort? = some expected := by
  cases expected <;> cases kind <;> simp_all [Build.withExit, sort?, construct?]

end Kind

namespace Module

/-- What an instruction does, if there is one. -/
def kind? (m : Module) (id : InstId) : Option Kind := (m.insts[id.index]?).map Inst.kind

/-- The loop that an instruction is. -/
def loop? (m : Module) (id : InstId) : Option Loop :=
  match m.kind? id with
  | some (.loop l) => some l
  | _ => none

theorem loop?_eq_some : m.loop? id = some l ↔ m.kind? id = some (.loop l) := by
  unfold loop?
  split
  · simp_all
  · rename_i other
    simpa using other l

/-- The construct that an instruction is. -/
def sortOf? (m : Module) (id : InstId) : Option ConstructKind := (m.kind? id).bind Kind.sort?

theorem sortOf?_of_loop? (found : m.loop? target = some l) : m.sortOf? target = some .loop := by
  rw [sortOf?, loop?_eq_some.mp found]
  rfl

/-- The block of a loop that a branch goes on in. -/
def goesTo? (m : Module) : Kind → Option BlockId
  | .breakIf _ target _ _ | .nextIteration target _ => (m.loop? target).map Loop.body
  | .continueTo target _ => (m.loop? target).map Loop.continuing
  | _ => none

/-- The module with one more block. -/
def addBlock (m : Module) (parent : Option InstId) : Module := { m with blocks := m.blocks.push { parent } }

/-- The module with one more instruction at the end of a block. -/
def addInst (m : Module) (block : BlockId) (kind : Kind) (types : List Ty) : Module :=
  { m with
    values := m.values ++ (types.map fun ty => ⟨ty, none, .result ⟨m.insts.size⟩⟩).toArray
    insts := m.insts.push ⟨kind, (List.range' m.values.size types.length).map ValueId.mk, block⟩
    blocks := m.blocks.modify block.index fun b => { b with insts := b.insts ++ [⟨m.insts.size⟩] } }

/-- The module in which an instruction does something else. -/
def changeKind (m : Module) (id : InstId) (update : Kind → Kind) : Module :=
  { m with insts := m.insts.modify id.index fun inst => { inst with kind := update inst.kind } }

/-- The module in which a branch is registered with the construct it leaves, if that is of the right kind. -/
def addExit (m : Module) (exit : InstId) : Option (ConstructKind × InstId) → Module
  | some (expected, target) => m.changeKind target fun kind => (Build.withExit expected exit kind).getD kind
  | none => m

/-- The module in which a branch is registered with the block it goes to. -/
def addInbound (m : Module) (branch : InstId) : Option BlockId → Module
  | some block =>
    { m with blocks := m.blocks.modify block.index fun b => { b with inbound := b.inbound ++ [branch] } }
  | none => m

/-- The module with one more instruction, which is registered where it goes. -/
def append (m : Module) (block : BlockId) (kind : Kind) (types : List Ty) : Module :=
  ((m.addInst block kind types).addExit ⟨m.insts.size⟩ kind.leaves?).addInbound ⟨m.insts.size⟩ (m.goesTo? kind)

/-- The module with two more blocks, which belong to the next instruction. -/
def addBlocks (m : Module) : Module := (m.addBlock (some ⟨m.insts.size⟩)).addBlock (some ⟨m.insts.size⟩)

/-- The module with one more instruction that owns two blocks, which are new, too. -/
def addConstruct (m : Module) (block : BlockId) (construct : BlockId → BlockId → Kind) (types : List Ty) : Module :=
  m.addBlocks.addInst block (construct ⟨m.blocks.size⟩ ⟨m.blocks.size + 1⟩) types

theorem map_modify_of_eq {α β : Type} {f : α → β} {update : α → α} (same : ∀ a, f (update a) = f a)
    (array : Array α) (index : Nat) : (array.modify index update).map f = array.map f := by
  refine ext_getElem? fun i => ?_
  rw [getElem?_map, getElem?_map, getElem?_modify]
  split
  · cases array[i]? with
    | none => rfl
    | some a => simp [same]
  · rfl

theorem modify_push_size {α : Type} {update : α → α} (array : Array α) (a : α) :
    (array.push a).modify array.size update = array.push (update a) := by
  refine ext_getElem? fun i => ?_
  rw [getElem?_modify, getElem?_push, getElem?_push]
  by_cases last : i = array.size
  · simp [last]
  · simp [last, Ne.symm last]

/-- A block can be added to if it exists and its last instruction does not end it. -/
theorem terminator?_eq_none {id : BlockId} : m.terminator? id = .ok none ↔ ∃ b, m.block id = .ok b ∧
    ∀ last ∈ b.insts.getLast?, ∃ inst, m.inst last = .ok inst ∧ inst.kind.isTerminator = false := by
  rw [terminator?, bind_eq_ok]
  refine exists_congr fun b => and_congr_right fun _ => ?_
  cases b.insts.getLast? with
  | none => simp [pure, Except.pure]
  | some last =>
    simp only [bind_eq_ok, Option.mem_def, Option.some.injEq, forall_eq']
    refine exists_congr fun inst => and_congr_right fun _ => ?_
    cases inst.kind.isTerminator <;> simp [pure, Except.pure]

/-- A change that building makes at once. Only where `inward` holds may a construct be added to one of the blocks that
are made for it, and only where `stray` holds may a branch name what is not a construct of its kind. -/
inductive Edit (inward stray : Prop) (m : Module) : Module → Prop where
  /-- Names, types and constants do not matter to the shape of a module. -/
  | relabel {structs : Array StructDef} {constants : Pool} {values : Array ValueDef} {functions : Array Function}
      (origins : values.map ValueDef.origin = m.values.map ValueDef.origin)
      (params : functions.map Function.params = m.functions.map Function.params)
      (entries : functions.map Function.entry = m.functions.map Function.entry) :
      Edit inward stray m { m with structs, constants, values, functions }
  | block (parent : Option InstId) : Edit inward stray m (m.addBlock parent)
  | function {function : Function} (entry : function.entry = ⟨m.blocks.size⟩) (params : function.params = []) :
      Edit inward stray m { m.addBlock none with functions := m.functions.push function }
  | param {id : FuncId} {value : ValueDef} (known : id.index < m.functions.size)
      (origin : value.origin = .functionParam id) :
      Edit inward stray m { m with
        values := m.values.push value
        functions := m.functions.modify id.index fun f => { f with params := f.params ++ [⟨m.values.size⟩] } }
  | blockParam {id : BlockId} {value : ValueDef} (known : id.index < m.blocks.size)
      (origin : value.origin = .blockParam id) :
      Edit inward stray m { m with
        values := m.values.push value
        blocks := m.blocks.modify id.index fun b => { b with params := b.params ++ [⟨m.values.size⟩] } }
  /-- An instruction without blocks. A branch may name itself, but nothing that comes later. -/
  | inst {block : BlockId} {kind : Kind} {types : List Ty} (opened : m.terminator? block = .ok none)
      (childless : kind.children = []) (bare : ∀ found ∈ kind.construct?, found.2 = [])
      (known : ∀ target ∈ kind.target?, target.index ≤ m.insts.size)
      (aimed : stray ∨ ∀ found ∈ kind.aims?, m.sortOf? found.2 = some found.1) :
      Edit inward stray m (m.append block kind types)
  | conditional {block : BlockId} {condition : Value} {types : List Ty}
      (opened : m.addBlocks.terminator? block = .ok none) (placed : inward ∨ block.index < m.blocks.size) :
      Edit inward stray m (m.addConstruct block (fun yes no => .conditional ⟨condition, yes, no, []⟩) types)
  | loop {block : BlockId} {types : List Ty} (opened : m.addBlocks.terminator? block = .ok none)
      (placed : inward ∨ block.index < m.blocks.size) :
      Edit inward stray m (m.addConstruct block (fun body continuing => .loop ⟨none, body, continuing, []⟩) types)
  | initializer {target : InstId} {l : Loop} (held : m.loop? target = some l) :
      Edit inward stray m ((m.addBlock (some target)).changeKind target fun _ =>
        .loop { l with initializer := some ⟨m.blocks.size⟩ })
  | case {target : InstId} {s : Switch} {selectors : List Selector} (held : m.kind? target = some (.switch s)) :
      Edit inward stray m ((m.addBlock (some target)).changeKind target fun _ =>
        .switch { s with cases := s.cases ++ [⟨selectors, ⟨m.blocks.size⟩⟩] })

/-- Edits one after the other. -/
abbrev EditsTo (inward stray : Prop) : Module → Module → Prop := Relation.ReflTransGen (Edit inward stray)

end Module

namespace Build

open Shader.Module

variable {α β : Type} {inward stray : Prop} {b c : Builder}
variable {step : Build α} {next : α → Build β} {ended : Except BuildFailure α × Builder} {update : Kind → Kind}
  {home : BlockId}

/-- The outcome of a step, and the builder after it. -/
def exec (step : Build α) (b : Builder) : Except BuildFailure α × Builder := step.run.run b

theorem exec_bind (step : Build α) (next : α → Build β) : exec (step >>= next) b = match exec step b with
      | (.ok a, c) => exec (next a) c
      | (.error failure, c) => (.error failure, c) := by
  simp only [exec, ExceptT.run_bind, StateT.run_bind]
  rcases StateT.run (ExceptT.run step) b with ⟨_ | _, c⟩ <;> rfl

theorem exec_bind_ok {a : α} (ran : exec step b = (.ok a, c)) : exec (step >>= next) b = exec (next a) c := by
  rw [exec_bind, ran]

theorem exec_bind_error {failure : BuildFailure}
    (ran : exec step b = (.error failure, c)) : exec (step >>= next) b = (.error failure, c) := by
  rw [exec_bind, ran]

theorem exec_answer (step : Build α) (reply : α → β) :
    exec (do return reply (← step)) b = ((exec step b).1.map reply, (exec step b).2) := by
  rw [exec_bind]
  rcases exec step b with ⟨_ | _, _⟩ <;> rfl

theorem exec_pure (a : α) : exec (pure a) b = (.ok a, b) := rfl

theorem exec_get : exec (get : Build Builder) b = (.ok b, b) := rfl

theorem exec_change (update : Module → Module) :
    exec (change update) b = (.ok (), { b with module := update b.module }) := rfl

theorem exec_newBlock (parent : Option InstId) :
    exec (newBlock parent) b = (.ok ⟨b.module.blocks.size⟩, { b with module := b.module.addBlock parent }) := rfl

theorem exec_nextInst : exec nextInst b = (.ok ⟨b.module.insts.size⟩, b) := rfl

theorem exec_ask (read : Module → Except Fault α) : exec (ask read) b = match read b.module with
      | .ok a => (.ok a, b)
      | .error fault => (.error (.fault fault), b) := by
  rw [ask, exec_bind_ok exec_get]
  cases read b.module <;> rfl

theorem exec_changeBlock {id : BlockId} {update : Block → Block} (known : id.index < b.module.blocks.size) :
    exec (changeBlock id update) b =
      (.ok (), { b with module := { b.module with blocks := b.module.blocks.modify id.index update } }) := by
  rw [changeBlock, exec_bind_ok exec_get, if_pos known, exec_change]

theorem exec_newValue (ty : Ty) (origin : Origin) : exec (newValue ty origin) b = (.ok ⟨b.module.values.size⟩,
    { b with module := { b.module with values := b.module.values.push ⟨ty, none, origin⟩ } }) := rfl

theorem exec_newValues (types : List Ty) (origin : Origin) : exec (types.mapM fun ty => newValue ty origin) b =
      (.ok ((List.range' b.module.values.size types.length).map ValueId.mk), { b with module := { b.module with
          values := b.module.values ++ (types.map fun ty => ⟨ty, none, origin⟩).toArray } }) := by
  induction types generalizing b with
  | nil =>
    rw [List.mapM_nil, exec_pure]
    simp
  | cons ty rest ih =>
    rw [List.mapM_cons, exec_bind_ok (exec_newValue ty origin), exec_bind_ok ih, exec_pure]
    simp [List.range'_succ]

/-- An instruction is added unless the block does not exist or has been ended. -/
theorem exec_push (kind : Kind) (types : List Ty) : exec (push kind types) b = match b.module.terminator? b.current with
      | .ok none =>
        (.ok (⟨b.module.insts.size⟩, ((List.range' b.module.values.size types.length).map ValueId.mk).map .ssa),
          { b with module := b.module.addInst b.current kind types })
      | .ok (some _) => (.error (.refused (.blockEnded b.current)), b)
      | .error fault => (.error (.fault fault), b) := by
  have current : exec currentBlock b = (.ok b.current, b) := rfl
  rw [push, exec_bind_ok current]
  have asked := exec_ask (b := b) (·.terminator? b.current)
  cases found : b.module.terminator? b.current with
  | error fault =>
    simp only [found] at asked
    exact exec_bind_error asked
  | ok last =>
    simp only [found] at asked
    rw [exec_bind_ok asked]
    cases last with
    | some id => rfl
    | none =>
      obtain ⟨_, held, -⟩ := terminator?_eq_none.mp found
      have known := (Array.getElem?_eq_some_iff.mp (block_eq_ok.mp held)).1
      simp only [Option.isSome_none, Bool.false_eq_true, if_false]
      rw [exec_bind_ok exec_nextInst, exec_bind_ok (exec_newValues types _), exec_bind_ok (exec_change _)]
      refine (exec_bind_ok (exec_changeBlock ?_)).trans rfl
      exact known

theorem exec_push_cases (kind : Kind) (types : List Ty) :
    (b.module.terminator? b.current = .ok none ∧ exec (push kind types) b =
      (.ok (⟨b.module.insts.size⟩, ((List.range' b.module.values.size types.length).map ValueId.mk).map .ssa),
        { b with module := b.module.addInst b.current kind types })) ∨
      ∃ failure, exec (push kind types) b = (.error failure, b) := by
  rw [exec_push]
  rcases b.module.terminator? b.current with fault | _ | last
  · exact .inr ⟨_, rfl⟩
  · exact .inl ⟨rfl, rfl⟩
  · exact .inr ⟨_, rfl⟩

theorem edits_of_exec (ran : exec step b = ended)
    (edits : m.EditsTo inward stray ended.2.module) : m.EditsTo inward stray (exec step b).2.module :=
  ran ▸ edits

/-- The outcome is one that building can go on after. -/
def Goes (outcome : Except BuildFailure α) : Prop := ∀ failure, outcome = .error failure → failure.isRefusal = true

theorem goes_of_exec (ran : exec step b = ended) (goes : Goes (exec step b).1) : Goes ended.1 :=
  ran ▸ goes

theorem goes_of_map {outcome : Except BuildFailure α} {reply : α → β} (goes : Goes (outcome.map reply)) :
    Goes outcome := fun failure failed => goes failure (by rw [failed]; rfl)

/-- Whatever the step comes to, unless building ends there, it has made edits. -/
structure Editing (inward stray : Prop) (step : Build α) : Prop where
  edits : ∀ b, Goes (exec step b).1 → b.module.EditsTo inward stray (exec step b).2.module

namespace Editing

theorem pure (a : α) : Editing inward stray (pure a) := ⟨fun _ _ => .refl⟩

theorem refuse (error : BuildError) : Editing inward stray (Build.refuse error : Build α) := ⟨fun _ _ => .refl⟩

theorem throw (failure : BuildFailure) : Editing inward stray (throw failure : Build α) := ⟨fun _ _ => .refl⟩

theorem bind (first : Editing inward stray step)
    (second : ∀ a, Editing inward stray (next a)) : Editing inward stray (step >>= next) := by
  refine ⟨fun b goes => ?_⟩
  have made := first.edits b
  cases ended : exec step b with
  | mk middle d =>
    rw [ended] at made
    cases middle with
    | ok a =>
      rw [exec_bind_ok ended] at goes ⊢
      exact (made (by simp [Goes])).trans ((second a).edits d goes)
    | error failure =>
      rw [exec_bind_error ended] at goes ⊢
      exact made fun other error => goes other (by rw [Except.error.inj error])

theorem ask (read : Module → Except Fault α) : Editing inward stray (Build.ask read) := by
  refine ⟨fun b _ => ?_⟩
  rw [exec_ask]
  cases read b.module <;> exact .refl

end Editing

/-- An instruction that owns no blocks and is registered nowhere. -/
theorem append_plain (block : BlockId) (types : List Ty) (named : kind.target? = none) :
    m.append block kind types = m.addInst block kind types := by
  cases kind <;> first | rfl | cases named

/-- Kinds of instructions that own no blocks and name no construct. -/
structure Plain (kind : Kind) : Prop where
  childless : kind.children = []
  bare : ∀ found ∈ kind.construct?, found.2 = []
  named : kind.target? = none

theorem editing_push (types : List Ty) (plain : Plain kind) : Editing inward stray (push kind types) := by
  refine ⟨fun b _ => ?_⟩
  rcases exec_push_cases (b := b) kind types with ⟨opened, ran⟩ | ⟨failure, ran⟩
  · rw [ran, ← append_plain b.current types plain.named]
    have named := Kind.target?_eq_aims? kind ▸ plain.named
    exact .single (.inst opened plain.childless plain.bare (by simp [plain.named])
      (.inr (by simp [Option.map_eq_none_iff.mp named])))
  · rw [ran]

theorem editing_pushValue (ty : Ty) (plain : Plain kind) : Editing inward stray (pushValue kind ty) := by
  refine (editing_push [ty] plain).bind fun (_, results) => ?_
  cases results with
  | nil => exact .throw _
  | cons value rest => exact .pure value

theorem editing_pushVoid (plain : Plain kind) : Editing inward stray (pushVoid kind) :=
  (editing_push [] plain).bind fun _ => .pure _

theorem editing_function (name : String) (returnType : Ty) (stage : Stage) :
    Editing inward stray (function name returnType stage) :=
  ⟨fun _ _ => .single (.function rfl rfl)⟩

theorem editing_changeFunction (id : FuncId) {update : Function → Function}
    (params : ∀ f, (update f).params = f.params) (entry : ∀ f, (update f).entry = f.entry) :
    Editing inward stray (changeFunction id update) := by
  refine ⟨fun b _ => ?_⟩
  rw [changeFunction, exec_bind_ok exec_get]
  split
  · exact .single (.relabel rfl (map_modify_of_eq params _ _) (map_modify_of_eq entry _ _))
  · exact .refl

theorem editing_changeValue (id : ValueId) {update : ValueDef → ValueDef}
    (origin : ∀ v, (update v).origin = v.origin) : Editing inward stray (changeValue id update) := by
  refine ⟨fun b _ => ?_⟩
  rw [changeValue, exec_bind_ok exec_get]
  split
  · exact .single (.relabel (map_modify_of_eq origin _ _) rfl rfl)
  · exact .refl

theorem editing_param (function : FuncId) (ty : Ty) (name : Option String) :
    Editing inward stray (param function ty name) := by
  refine ⟨fun b goes => ?_⟩
  have named : exec (changeValue ⟨b.module.values.size⟩ fun v => { v with name }) { b with module :=
      { b.module with values := b.module.values.push ⟨ty, none, .functionParam function⟩ } } = (.ok (), { b with
        module := { b.module with values := b.module.values.push ⟨ty, name, .functionParam function⟩ } }) := by
    rw [changeValue, exec_bind_ok exec_get, if_pos (by simp), exec_change]
    simp [modify_push_size]
  rw [param, exec_bind_ok (exec_newValue ..), exec_bind_ok named, changeFunction, bind_assoc, exec_bind_ok exec_get]
    at goes ⊢
  split
  · exact .single (.param ‹_› rfl)
  · rw [if_neg ‹_›] at goes
    exact absurd (goes _ rfl) (by decide)

theorem editing_blockParam (block : BlockId) (ty : Ty) : Editing inward stray (blockParam block ty) := by
  refine ⟨fun b goes => ?_⟩
  rw [blockParam, exec_bind_ok (exec_newValue ..), changeBlock, bind_assoc, exec_bind_ok exec_get] at goes ⊢
  split
  · exact .single (.blockParam ‹_› rfl)
  · rw [if_neg ‹_›] at goes
    exact absurd (goes _ rfl) (by decide)

/-- Add a construct along with two blocks. The blocks are made before it is known whether it can be added. -/
def begin (construct : BlockId → BlockId → Kind) (types : List Ty)
    (handle : BlockId → BlockId → InstId × List Value → α) : Build α := do
  let owner ← nextInst
  let first ← newBlock (some owner)
  let second ← newBlock (some owner)
  let added ← push (construct first second) types
  return handle first second added

theorem conditional_eq (condition : Value) (types : List Ty) : conditional condition types =
    begin (fun yes no => .conditional ⟨condition, yes, no, []⟩) types fun yes no (inst, results) =>
      ⟨inst, yes, no, results⟩ := rfl

theorem loop_eq (types : List Ty) : loop types =
    begin (fun body continuing => .loop ⟨none, body, continuing, []⟩) types fun body continuing (inst, results) =>
      ⟨inst, body, continuing, results⟩ := rfl

section begin

variable (construct : BlockId → BlockId → Kind) (types : List Ty) (handle : BlockId → BlockId → InstId × List Value → α)

theorem exec_begin : exec (begin construct types handle) b = exec (do
        let added ← push (construct ⟨b.module.blocks.size⟩ ⟨b.module.blocks.size + 1⟩) types
        return handle ⟨b.module.blocks.size⟩ ⟨b.module.blocks.size + 1⟩ added) ⟨b.module.addBlocks, b.current⟩ := by
  let owner : Option InstId := some ⟨b.module.insts.size⟩
  have size : (b.module.addBlock owner).blocks.size = b.module.blocks.size + 1 := size_push ..
  rw [begin, exec_bind_ok exec_nextInst, exec_bind_ok (exec_newBlock owner), exec_bind_ok (exec_newBlock owner)]
  dsimp only
  rw [size]
  rfl

theorem edits_begin (edit : b.module.addBlocks.terminator? b.current = .ok none →
      Edit inward stray b.module (b.module.addConstruct b.current construct types)) :
    b.module.EditsTo inward stray (exec (begin construct types handle) b).2.module := by
  rw [exec_begin]
  rcases exec_push_cases (b := ⟨b.module.addBlocks, b.current⟩)
    (construct ⟨b.module.blocks.size⟩ ⟨b.module.blocks.size + 1⟩) types with ⟨opened, ran⟩ | ⟨failure, ran⟩
  · exact edits_of_exec (exec_bind_ok ran) (.single (edit opened))
  · exact edits_of_exec (exec_bind_error ran) (.tail (.single (.block _)) (.block _))

end begin

/-- A construct is changed if it has the kind that is expected; one that does not exist ends the building. -/
theorem exec_changeKind (id : InstId) (expected : ConstructKind) (update : Kind → Option Kind) :
    exec (Build.changeKind id expected update) b = (.error .outOfRange, b) ∨
      ∃ inst, b.module.insts[id.index]? = some inst ∧ (update inst.kind = none ∧
            exec (Build.changeKind id expected update) b = (.error (.refused (.wrongConstruct expected id)), b) ∨
          ∃ kind, update inst.kind = some kind ∧ exec (Build.changeKind id expected update) b =
            (.ok (), { b with module := b.module.changeKind id fun _ => kind })) := by
  rw [Build.changeKind, exec_bind_ok exec_get]
  cases b.module.insts[id.index]? with
  | none => exact .inl rfl
  | some inst =>
    refine .inr ⟨inst, rfl, ?_⟩
    dsimp only
    cases update inst.kind with
    | none => exact .inl ⟨rfl, rfl⟩
    | some kind => exact .inr ⟨kind, rfl, rfl⟩

/-- A construct of the expected kind gets one more block. The block is made before the kind is known. -/
theorem editing_child {update : BlockId → Kind → Option Kind}
    (edit : ∀ {m : Module} {inst kind}, m.insts[target.index]? = some inst →
      update ⟨m.blocks.size⟩ inst.kind = some kind →
      Edit inward stray m ((m.addBlock (some target)).changeKind target fun _ => kind)) : Editing inward stray (do
        let block ← newBlock (some target)
        Build.changeKind target expected (update block)
        return block) := by
  refine ⟨fun b goes => ?_⟩
  rw [exec_bind_ok (exec_newBlock _)] at goes ⊢
  rcases exec_changeKind (b := ⟨b.module.addBlock (some target), b.current⟩) target expected
    (update ⟨b.module.blocks.size⟩) with ran | ⟨inst, held, ⟨-, ran⟩ | ⟨kind, changed, ran⟩⟩
  · exact absurd (goes_of_exec (exec_bind_error ran) goes _ rfl) (by decide)
  · exact edits_of_exec (exec_bind_error ran) (.single (.block _))
  · exact edits_of_exec (exec_bind_ok ran) (.single (edit held changed))

theorem editing_loopInitializer (target : InstId) : Editing inward stray (loopInitializer target) := by
  refine editing_child fun {m inst kind} held changed => ?_
  split at changed <;> cases changed
  rename_i l same
  exact .initializer (loop?_eq_some.mpr (by simp [kind?, held, same]))

theorem editing_addCase (target : InstId) (selectors : List Selector) :
    Editing inward stray (addCase target selectors) := by
  refine editing_child fun {m inst kind} held changed => ?_
  split at changed <;> cases changed
  rename_i s same
  exact .case (by simp [kind?, held, same])

/-- A construct that does not have the kind that is expected stays as it is. -/
theorem changeKind_of_eq (held : m.insts[id.index]? = some inst)
    (same : update inst.kind = inst.kind) : m.changeKind id update = m := by
  have insts : m.insts.modify id.index (fun inst => { inst with kind := update inst.kind }) = m.insts := by
    refine ext_getElem? fun i => ?_
    rw [getElem?_modify]
    split
    · rename_i here
      rw [← here, held]
      simp [same]
    · rfl
  rw [Module.changeKind, insts]

theorem changeKind_congr {update' : Kind → Kind} (held : m.insts[id.index]? = some inst)
    (same : update inst.kind = update' inst.kind) : m.changeKind id update = m.changeKind id update' := by
  have insts : m.insts.modify id.index (fun inst => { inst with kind := update inst.kind }) =
      m.insts.modify id.index fun inst => { inst with kind := update' inst.kind } := by
    refine ext_getElem? fun i => ?_
    rw [getElem?_modify, getElem?_modify]
    split
    · rename_i here
      rw [← here, held]
      simp [same]
    · rfl
  rw [Module.changeKind, Module.changeKind, insts]

/-- A construct that is of another kind is left as it is. -/
theorem addExit_of_none (held : m.insts[target.index]? = some inst)
    (wrong : withExit expected exit inst.kind = none) : m.addExit exit (some (expected, target)) = m := by
  rw [addExit]
  exact changeKind_of_eq held (by simp [wrong])

theorem addExit_of_some (held : m.insts[target.index]? = some inst)
    (changed : withExit expected exit inst.kind = some kind) :
    m.addExit exit (some (expected, target)) = m.changeKind target fun _ => kind := by
  rw [addExit]
  exact changeKind_congr held (by simp [changed])

/-- Whether a branch is registered with the construct it leaves depends on the kind of that. -/
theorem exec_registerExit (target exit : InstId) (expected : ConstructKind) :
    exec (registerExit target exit expected) b = (.error .outOfRange, b) ∨
      ∃ inst outcome, b.module.insts[target.index]? = some inst ∧ exec (registerExit target exit expected) b =
        (outcome, { b with module := b.module.addExit exit (some (expected, target)) }) ∧
        (withExit expected exit inst.kind ≠ none → outcome = .ok ()) := by
  rcases exec_changeKind (b := b) target expected (withExit expected exit) with
    ran | ⟨inst, held, ⟨wrong, ran⟩ | ⟨kind, changed, ran⟩⟩
  · exact .inl ran
  · rw [addExit_of_none held wrong]
    exact .inr ⟨inst, _, held, ran, absurd wrong⟩
  · rw [addExit_of_some held changed]
    exact .inr ⟨inst, _, held, ran, fun _ => rfl⟩

theorem exec_pushVoid (kind : Kind) : (b.module.terminator? b.current = .ok none ∧ exec (pushVoid kind) b =
      (.ok ⟨b.module.insts.size⟩, { b with module := b.module.addInst b.current kind [] })) ∨
      ∃ failure, exec (pushVoid kind) b = (.error failure, b) := by
  rcases exec_push_cases (b := b) kind [] with ⟨opened, ran⟩ | ⟨failure, ran⟩
  · exact .inl ⟨opened, exec_bind_ok ran⟩
  · exact .inr ⟨failure, exec_bind_error ran⟩

/-- A branch that is registered where it goes. It names a construct of its kind, unless it is a stray one. -/
theorem edit_branch (opened : m.terminator? home = .ok none)
    (aims : kind.aims? = some (expected, target)) (known : target.index ≤ m.insts.size)
    (aimed : stray ∨ m.sortOf? target = some expected) : Edit inward stray m (m.append home kind []) := by
  obtain ⟨childless, bare⟩ := Kind.branch_of_aims? aims
  refine .inst opened childless (by simp [bare]) (fun other same => ?_) (aimed.imp_right fun fits found names => ?_)
  · obtain rfl : target = other := by simpa [Kind.target?_eq_aims?, aims] using same
    exact known
  · cases aims.symm.trans names
    exact fits

/-- Add a branch out of a construct, and register it there if the construct has the kind that is expected. -/
def leave (kind : Kind) (target : InstId) (expected : ConstructKind) : Build Unit := do
  let exit ← pushVoid kind
  registerExit target exit expected

/-- A branch that only leaves a construct. It stays in its block even if the construct is of another kind. -/
theorem edits_leave (leaves : kind.leaves? = some (expected, target)) (ends : ∀ m : Module, m.goesTo? kind = none)
    (goes : Goes (exec (leave kind target expected) b).1)
    (accepted : stray ∨ (exec (leave kind target expected) b).1.isOk = true) :
    b.module.EditsTo inward stray (exec (leave kind target expected) b).2.module := by
  have aims := Kind.aims?_of_leaves? leaves
  rcases exec_pushVoid (b := b) kind with ⟨opened, added⟩ | ⟨failure, failed⟩
  · rcases exec_changeKind (b := ⟨b.module.addInst b.current kind [], b.current⟩) target expected
      (withExit expected ⟨b.module.insts.size⟩) with failed | ⟨inst, held, ended⟩
    · exact absurd (goes_of_exec ((exec_bind_ok added).trans failed) goes _ rfl) (by decide)
    · have known : target.index ≤ b.module.insts.size :=
        Nat.lt_succ_iff.mp (by simpa [addInst] using (Array.getElem?_eq_some_iff.mp held).1)
      rcases ended with ⟨wrong, ran⟩ | ⟨new, changed, ran⟩
      · rw [leave, exec_bind_ok added, registerExit, ran] at accepted
        have edit : Edit inward stray _ _ := edit_branch opened aims known (.inl (accepted.resolve_right nofun))
        rw [append, leaves, ends, addExit_of_none held wrong] at edit
        exact edits_of_exec ((exec_bind_ok added).trans ran) (.single edit)
      · have fits : b.module.sortOf? target = some expected := by
          have sort := Kind.sort?_of_withExit changed
          simp only [addInst, getElem?_push] at held
          split at held
          -- The branch itself is no construct, so it does not name itself.
          · cases held
            rw [Kind.sort?, (Kind.branch_of_aims? aims).2] at sort
            cases sort
          · rwa [sortOf?, kind?, held]
        have edit : Edit inward stray _ _ := edit_branch opened aims known (.inr fits)
        rw [append, leaves, ends, addExit_of_some held changed] at edit
        exact edits_of_exec ((exec_bind_ok added).trans ran) (.single edit)
  · exact edits_of_exec (exec_bind_error failed) .refl

/-- A branch that goes on in a loop has to name one. -/
theorem exec_loopOf (target : InstId) : (∃ l, b.module.loop? target = some l ∧ exec (loopOf target) b = (.ok l, b)) ∨
      ∃ failure, exec (loopOf target) b = (.error failure, b) := by
  have asked := exec_ask (b := b) (·.inst target)
  cases held : b.module.inst target with
  | error fault =>
    simp only [held] at asked
    exact .inr ⟨_, exec_bind_error asked⟩
  | ok inst =>
    simp only [held] at asked
    rw [loopOf, exec_bind_ok asked]
    split
    · rename_i l same
      exact .inl ⟨l, loop?_eq_some.mpr (Option.map_eq_some_iff.mpr ⟨inst, inst_eq_ok.mp held, same⟩), rfl⟩
    · exact .inr ⟨_, rfl⟩

theorem exec_registerInbound (block : BlockId) (branch : InstId) :
    exec (registerInbound block branch) b = (.error .outOfRange, b) ∨ exec (registerInbound block branch) b =
        (.ok (), { b with module := b.module.addInbound branch (some block) }) := by
  rw [registerInbound, changeBlock, exec_bind_ok exec_get]
  split
  · exact .inr rfl
  · exact .inl rfl

/-- A branch names a loop that is there, and is registered with the block it goes to. -/
theorem edit_onward {block : BlockId} (opened : m.terminator? home = .ok none)
    (aims : kind.aims? = some (.loop, target)) (found : m.loop? target = some l)
    (enters : m.goesTo? kind = some block) : Edit inward stray m
      (((m.addInst home kind []).addExit ⟨m.insts.size⟩ kind.leaves?).addInbound ⟨m.insts.size⟩ (some block)) := by
  obtain ⟨inst, held, -⟩ := Option.map_eq_some_iff.mp (loop?_eq_some.mp found)
  have edit : Edit inward stray _ _ :=
    edit_branch opened aims (Array.getElem?_eq_some_iff.mp held).1.le (.inr (sortOf?_of_loop? found))
  rwa [append, enters] at edit

/-- A branch that goes on in a block of a loop, without leaving the loop. -/
theorem editing_branch {block : Loop → BlockId} (aims : kind.aims? = some (.loop, target))
    (stays : kind.leaves? = none) (enters : ∀ m : Module, m.goesTo? kind = (m.loop? target).map block) :
    Editing inward stray (do
      let l ← loopOf target
      let branch ← pushVoid kind
      registerInbound (block l) branch) := by
  refine ⟨fun b goes => ?_⟩
  rcases exec_loopOf (b := b) target with ⟨l, found, asked⟩ | ⟨failure, failed⟩
  · rw [exec_bind_ok asked] at goes ⊢
    rcases exec_pushVoid (b := b) kind with ⟨opened, added⟩ | ⟨failure, failed⟩
    · rw [exec_bind_ok added] at goes ⊢
      rcases exec_registerInbound (b := ⟨b.module.addInst b.current kind [], b.current⟩) (block l)
        ⟨b.module.insts.size⟩ with failed | registered
      · exact absurd (goes_of_exec failed goes _ rfl) (by decide)
      · have edit : Edit inward stray b.module _ :=
          edit_onward opened aims found (by rw [enters, found]; rfl)
        rw [stays] at edit
        exact edits_of_exec registered (.single edit)
    · exact edits_of_exec (exec_bind_error failed) .refl
  · exact edits_of_exec (exec_bind_error failed) .refl

/-- A branch that leaves a loop or goes on in its body is registered with both. -/
theorem editing_breakIf (target : InstId) (condition : Value) (nextArgs exitArgs : List Value) :
    Editing inward stray (breakIf target condition nextArgs exitArgs) := by
  refine ⟨fun b goes => ?_⟩
  rcases exec_loopOf (b := b) target with ⟨l, found, asked⟩ | ⟨failure, failed⟩
  · let kind : Kind := .breakIf condition target nextArgs exitArgs
    rw [breakIf, exec_bind_ok asked] at goes ⊢
    rcases exec_pushVoid (b := b) kind with ⟨opened, added⟩ | ⟨failure, failed⟩
    · rw [exec_bind_ok added] at goes ⊢
      -- The target is still the loop that it was before the branch was added.
      obtain ⟨inst, held, isLoop⟩ := Option.map_eq_some_iff.mp (loop?_eq_some.mp found)
      have bound := (Array.getElem?_eq_some_iff.mp held).1
      have still : (b.module.addInst b.current kind []).insts[target.index]? = some inst := by
        rw [← held]
        exact Array.getElem?_push_lt bound |>.trans (Array.getElem?_eq_getElem bound).symm
      rcases exec_registerExit (b := ⟨b.module.addInst b.current kind [], b.current⟩) target
        ⟨b.module.insts.size⟩ .loop with failed | ⟨other, outcome, held', left, settled⟩
      · exact absurd (goes_of_exec (exec_bind_error failed) goes _ rfl) (by decide)
      · obtain rfl : inst = other := Option.some.inj (still.symm.trans held')
        obtain rfl := settled (by simp [isLoop, withExit])
        rw [exec_bind_ok left] at goes ⊢
        rcases exec_registerInbound (b := ⟨(b.module.addInst b.current kind []).addExit ⟨b.module.insts.size⟩
          (some (.loop, target)), b.current⟩) l.body ⟨b.module.insts.size⟩ with failed | registered
        · exact absurd (goes_of_exec failed goes _ rfl) (by decide)
        · have enters : b.module.goesTo? kind = some l.body := by
            rw [goesTo?, found]
            rfl
          exact edits_of_exec registered (.single (edit_onward opened rfl found enters))
    · exact edits_of_exec (exec_bind_error failed) .refl
  · exact edits_of_exec (exec_bind_error failed) .refl

theorem editing_pointeeOf (pointer : Value) : Editing inward stray (pointeeOf pointer) := by
  refine (Editing.ask _).bind fun ty => ?_
  split
  · exact .pure _
  · exact .refuse _

theorem editing_setName (value : Value) (name : String) : Editing inward stray (setName value name) := by
  cases value with
  | ssa id => exact editing_changeValue id fun _ => rfl
  | constant | literal => exact .pure ()

theorem editing_loadElement (source index : Value) : Editing inward stray (loadElement source index) := by
  refine (editing_pointeeOf source).bind fun ty => ?_
  split
  · exact editing_pushValue _ ⟨rfl, by simp [Kind.construct?], rfl⟩
  · exact .refuse _

theorem editing_var (ty : Ty) (declaration : Variable) : Editing inward stray (var ty declaration) := by
  have added : Editing inward stray (pushValue (.var declaration) ty) :=
    editing_pushValue _ ⟨rfl, by simp [Kind.construct?], rfl⟩
  unfold var
  extract_lets rest
  split
  · exact (Editing.refuse _).bind fun _ => added
  · exact added

end Build

/-- Whether a step begins a construct, along with blocks that are made for it. -/
def Call.beginsConstruct : Call → Bool
  | .conditional .. | .loop .. => true
  | _ => false

/-- Whether a step adds a branch. -/
def Call.isBranch : Call → Bool
  | .exitIf .. | .exitLoop .. | .exitSwitch .. | .breakIf .. | .continueTo .. | .nextIteration .. => true
  | _ => false

/-- The branch that a step adds before it looks at the construct that is left. -/
def Call.exit? : Call → Option Kind
  | .exitIf target args => some (.exitIf target args)
  | .exitLoop target args => some (.exitLoop target args)
  | .exitSwitch target args => some (.exitSwitch target args)
  | _ => none

namespace Builder

open Build Shader.Module

variable {inward stray : Prop}
variable {calls : List Call} {c : Builder}

/-- Every step makes edits, if one that begins or leaves a construct is looked at on its own. -/
theorem editing_run (call : Call) (begins : call.beginsConstruct = false) (stays : call.exit? = none) :
    Editing inward stray call.run := by
  have plain {kind : Kind} (childless : kind.children = []) (named : kind.target? = none)
      (bare : kind.construct? = none) : Plain kind := ⟨childless, by simp [bare], named⟩
  cases call with
  | currentBlock => exact ⟨fun _ _ => .refl⟩
  | switchToBlock | switchToRoot => exact ⟨fun _ _ => .refl⟩
  | function => exact (editing_function ..).bind fun _ => .pure _
  | computeFunction =>
    refine Editing.bind ?_ fun _ => .pure _
    refine (editing_function ..).bind fun id => Editing.bind ?_ fun _ => .pure _
    exact editing_changeFunction id (fun _ => rfl) fun _ => rfl
  | param => exact (editing_param ..).bind fun _ => .pure _
  | blockParam => exact (editing_blockParam ..).bind fun _ => .pure _
  | setName => exact (editing_setName ..).bind fun _ => .pure _
  -- Storing a constant and defining a struct leave the shape of the module as it is.
  | addStruct | constant => exact Editing.bind ⟨fun _ _ => .single (.relabel rfl rfl rfl)⟩ fun _ => .pure _
  | binary | unary | bitcast | convert | construct | swizzle | access | builtin | targetCall =>
    exact (editing_pushValue _ (plain rfl rfl rfl)).bind fun _ => .pure _
  | store | storeElement | builtinVoid | targetCallVoid | callVoid | ret | terminate | unreachable =>
    exact ((editing_pushVoid (plain rfl rfl rfl)).bind fun _ => .pure _).bind fun _ => .pure _
  | load source =>
    refine Editing.bind ?_ fun _ => .pure _
    exact (editing_pointeeOf source).bind fun _ => editing_pushValue _ (plain rfl rfl rfl)
  | loadElement => exact (editing_loadElement ..).bind fun _ => .pure _
  | var => exact (editing_var ..).bind fun _ => .pure _
  | bind | call =>
    refine Editing.bind ?_ fun _ => .pure _
    exact (Editing.ask _).bind fun _ => editing_pushValue _ (plain rfl rfl rfl)
  | conditional | loop => cases begins
  | loopInitializer => exact (editing_loopInitializer _).bind fun _ => .pure _
  | switch =>
    exact ((editing_push _ ⟨rfl, by simp [Kind.construct?], rfl⟩).bind fun _ => .pure _).bind fun _ => .pure _
  | addCase => exact (editing_addCase ..).bind fun _ => .pure _
  | exitIf | exitLoop | exitSwitch => cases stays
  | breakIf => exact (editing_breakIf ..).bind fun _ => .pure _
  | continueTo | nextIteration => exact (editing_branch rfl rfl fun _ => rfl).bind fun _ => .pure _

/-- A construct is begun in the selected block, and a branch that leaves one is accepted. -/
theorem edits_run (call : Call) (placed : call.beginsConstruct = true → inward ∨ b.current.index < b.module.blocks.size)
    (accepted : call.isBranch = true → stray ∨ (exec call.run b).1.isOk = true) (goes : Goes (exec call.run b).1) :
    b.module.EditsTo inward stray (exec call.run b).2.module := by
  have left {kind : Kind} {target : InstId} {expected : ConstructKind}
      (same : call.run = do let _ ← leave kind target expected; return Reply.done) (branch : call.isBranch = true)
      (leaves : kind.leaves? = some (expected, target)) (ends : ∀ m : Module, m.goesTo? kind = none) :
      b.module.EditsTo inward stray (exec call.run b).2.module := by
    have ended := exec_answer (b := b) (leave kind target expected) fun _ => Reply.done
    rw [← same] at ended
    rw [ended] at goes accepted ⊢
    refine edits_leave leaves ends (goes_of_map goes) ?_
    refine (accepted branch).imp_right fun isOk => ?_
    cases outcome : (exec (leave kind target expected) b).1 with
    | ok => rfl
    | error failure =>
      rw [outcome] at isOk
      cases isOk
  cases call with
  | conditional condition types =>
    rw [Call.run, exec_answer, conditional_eq]
    exact edits_begin _ _ _ fun opened => .conditional opened (placed rfl)
  | loop types =>
    rw [Call.run, exec_answer, loop_eq]
    exact edits_begin _ _ _ fun opened => .loop opened (placed rfl)
  | exitIf | exitLoop | exitSwitch => exact left rfl rfl rfl fun _ => rfl
  | _ => exact (editing_run _ rfl rfl).edits b goes

/-- Constructs are begun only while the selected block is there. -/
def Outward (builder : Builder) : List Call → Prop
  | [] => True
  | call :: calls =>
    (call.beginsConstruct = true → builder.current.index < builder.module.blocks.size) ∧
      (builder.apply call).2.Outward calls

/-- No branch is refused. -/
def AcceptsBranches (builder : Builder) : List Call → Prop
  | [] => True
  | call :: calls =>
    (call.isBranch = true → (builder.apply call).1.isOk = true) ∧ (builder.apply call).2.AcceptsBranches calls

/-- Building goes on after a step that is carried out or refused. -/
theorem goes_of_replay {call : Call} (ran : b.replay (call :: calls) = some c) :
    Goes (b.apply call).1 ∧ (b.apply call).2.replay calls = some c := by
  rw [replay] at ran
  rcases applied : b.apply call with ⟨failure | reply, d⟩
  · simp only [applied] at ran
    split at ran
    · exact ⟨by simpa [Goes] using ‹_›, ran⟩
    · cases ran
  · simp only [applied] at ran
    exact ⟨by simp [Goes], ran⟩

/-- What is left of the building steps that were carried out, refused ones among them, is a row of edits. -/
theorem edits_of_replay_placed (ran : b.replay calls = some c)
    (placed : inward ∨ b.Outward calls) (accepted : stray ∨ b.AcceptsBranches calls) :
    b.module.EditsTo inward stray c.module := by
  induction calls generalizing b with
  | nil =>
    cases ran
    exact .refl
  | cons call rest ih =>
    obtain ⟨goes, later⟩ := goes_of_replay ran
    have made : b.module.EditsTo inward stray (b.apply call).2.module :=
      edits_run call (fun begins => placed.imp_right fun outward => outward.1 begins)
        (fun branch => accepted.imp_right fun accepts => accepts.1 branch) goes
    exact made.trans (ih later (placed.imp_right And.right) (accepted.imp_right And.right))

theorem edits_of_replay (ran : b.replay calls = some c) : b.module.EditsTo True True c.module :=
  edits_of_replay_placed ran (.inl trivial) (.inl trivial)

end Builder
end Shader
