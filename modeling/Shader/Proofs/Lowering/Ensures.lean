import Shader.Proofs.Lowering.Effect

/-!
Rules for statements about a lowering.

A step is described by the effect it has. The rule for two steps in a row hands on what the first one
ensures as an assumption about the second, so the description of a longer step is checked once, at its
end, when the parts of its effect are all known.
-/
namespace Shader.Lower

open Binary LowerState

/-- A later state of a lowering, and the ids taken by then that belong to no key. -/
structure Ledger where
  state : LowerState
  loose : Multiset Word

/-- The ledger is of a state after `s`, which an effect has led to. -/
structure Ledger.Covers (L : Ledger) (s : LowerState) (e : Effect) : Prop where
  grows : s.Grows L.state
  loose : ∀ id ∈ e.loose, id ∈ L.loose

theorem Ledger.Covers.split {L : Ledger} {s t : LowerState} {first second : Effect}
    (covers : L.Covers t (first ++ second)) (grows : s.Grows t) : L.Covers s first ∧ L.Covers t second :=
  ⟨⟨grows.trans covers.grows, fun id member => covers.loose id (by simp [member])⟩,
    ⟨covers.grows, fun id member => covers.loose id (by simp [member])⟩⟩

theorem run_bind_eq_ok {α β : Type} {step : Lower α} {next : α → Lower β} {s u : LowerState} {b : β} :
    (step >>= next).run s = .ok (b, u) ↔ ∃ a t, step.run s = .ok (a, t) ∧ (next a).run t = .ok (b, u) := by
  rw [StateT.run_bind]
  cases step.run s with
  | error failure => simp
  | ok pair => simp [Prod.ext_iff]

/-- Whenever the step succeeds, its effect and its result are as described, in view of any later
state. -/
def Ensures {α : Type} (step : Lower α) (described : α → Ledger → Effect → Prop) : Prop :=
  ∀ s a t, s.Sound → step.run s = .ok (a, t) →
    t.Sound ∧ ∃ e, s.Reaches e t ∧ ∀ L : Ledger, L.Covers t e → described a L e

namespace Ensures

variable {α β : Type} {step : Lower α} {described weaker : α → Ledger → Effect → Prop}
variable {next : α → Lower β} {later : β → Ledger → Effect → Prop}

theorem mono (ensured : Ensures step described)
    (implied : ∀ a L e, described a L e → weaker a L e) : Ensures step weaker := by
  intro s a t sound ran
  obtain ⟨kept, e, reaches, holds⟩ := ensured s a t sound ran
  exact ⟨kept, e, reaches, fun L covers => implied a L e (holds L covers)⟩

theorem pure {a : α} (holds : ∀ L, described a L ∅) : Ensures (pure a) described := by
  intro s b t sound ran
  cases ran
  exact ⟨sound, ∅, .refl s, fun L _ => holds L⟩

/-- The second step need only be described for results that the first one can have. -/
theorem bind_fact {fact : α → Prop} (first : Ensures step described) (sure : ∀ a L e, described a L e → fact a)
    (second : ∀ a, fact a → Ensures (next a) fun b L e => ∀ e', described a L e' → later b L (e' ++ e)) :
    Ensures (step >>= next) later := by
  intro s b u sound ran
  obtain ⟨a, t, middle, ran⟩ := run_bind_eq_ok.mp ran
  obtain ⟨soundMiddle, e', reachesMiddle, holdsMiddle⟩ := first s a t sound middle
  have holds : fact a := sure a ⟨t, e'.loose⟩ e' (holdsMiddle _ ⟨.refl _, fun _ held => held⟩)
  obtain ⟨soundEnd, e, reachesEnd, holdsEnd⟩ := second a holds t b u soundMiddle ran
  refine ⟨soundEnd, e' ++ e, reachesMiddle.trans reachesEnd, fun L covers => ?_⟩
  obtain ⟨early, late⟩ := covers.split reachesEnd.grows
  exact holdsEnd L late e' (holdsMiddle L early)

theorem bind (first : Ensures step described)
    (second : ∀ a, Ensures (next a) fun b L e => ∀ e', described a L e' → later b L (e' ++ e)) :
    Ensures (step >>= next) later :=
  bind_fact first (fun _ _ _ _ => trivial) fun a _ => second a

/-- A last step that only turns the result into another one. -/
theorem map {f : α → β} (first : Ensures step described)
    (implied : ∀ a L e, described a L e → later (f a) L e) : Ensures (f <$> step) later := by
  rw [← bind_pure_comp]
  refine first.bind fun a => .pure fun L e' held => ?_
  simpa using implied a L e' held

theorem fail (fault : Fault) : Ensures (Lower.fail fault) described := by
  intro s a t _ ran
  cases ran

theorem fail_bind (fault : Fault) {next : β → Lower α} : Ensures (Lower.fail fault >>= next) described := by
  intro s a t _ ran
  cases ran

theorem throw_bind (failure : Failure) {next : β → Lower α} : Ensures (throw failure >>= next) described := by
  intro s a t _ ran
  cases ran

theorem check {outcome : Except Fault α} (holds : ∀ a L, outcome = .ok a → described a L ∅) :
    Ensures (Lower.check outcome) described := by
  cases outcome with
  | error fault => exact fail fault
  | ok a => exact pure fun L => holds a L rfl

/-- The steps after a look at the module know what was found. -/
theorem check_next {outcome : Except Fault α} (second : ∀ a, outcome = .ok a → Ensures (next a) later) :
    Ensures (Lower.check outcome >>= next) later := by
  cases outcome with
  | error fault => exact fail_bind fault
  | ok a => exact second a rfl

theorem ite {condition : Prop} [Decidable condition] {other : Lower α}
    (yes : condition → Ensures step described) (no : ¬condition → Ensures other described) :
    Ensures (if condition then step else other) described := by
  split
  · exact yes ‹_›
  · exact no ‹_›

end Ensures

/-- Each element of a list has its result and its effect, one after the other. -/
inductive Each {α β : Type} (related : α → β → Effect → Prop) : List α → List β → Effect → Prop where
  | nil : Each related [] [] ∅
  | cons {a : α} {b : β} {e rest : Effect} {as : List α} {bs : List β} (head : related a b e)
      (tail : Each related as bs rest) : Each related (a :: as) (b :: bs) (e ++ rest)

namespace Ensures

variable {α β : Type}

theorem mapM {f : α → Lower β} {described : α → β → Ledger → Effect → Prop} (list : List α)
    (each : ∀ a ∈ list, Ensures (f a) (described a)) :
    Ensures (list.mapM f) fun bs L e => Each (fun a b e => described a b L e) list bs e := by
  induction list with
  | nil =>
    rw [List.mapM_nil]
    exact pure fun L => .nil
  | cons a as ih =>
    rw [List.mapM_cons]
    refine (each a (by simp)).bind fun b => ?_
    refine (ih fun a' member => each a' (by simp [member])).bind fun bs => pure fun L => ?_
    intro rest tail e head
    have both : Each (fun a b e => described a b L e) (a :: as) (b :: bs) (e ++ rest) := .cons head tail
    simpa using both

theorem forM {f : α → Lower Unit} {described : α → Ledger → Effect → Prop} (list : List α)
    (each : ∀ a ∈ list, Ensures (f a) fun _ => described a) :
    Ensures (list.forM f) fun _ L e =>
      Each (fun a (_ : Unit) e => described a L e) list (list.map fun _ => ()) e := by
  induction list with
  | nil => exact pure fun L => .nil
  | cons a as ih =>
    refine (each a (by simp)).bind fun _ => ?_
    refine (ih fun a' member => each a' (by simp [member])).mono fun _ L rest tail e head => ?_
    exact Each.cons head tail

end Ensures
end Shader.Lower

namespace Shader.Binary

open Instruction FunctionCode

variable {op : Opcode} {operands : List Operand}
variable {inst : Instruction} {code after : FunctionCode}

theorem Instruction.op_of_make (made : Instruction.make op operands = .ok inst) : inst.op = op := by
  simp only [make_eq, makeBy, bind, Except.bind] at made
  repeat' split at made
  all_goals cases made
  rfl

theorem Instruction.result_of_make (made : Instruction.make op operands = .ok inst)
    (plain : op.grammar.result = false) : inst.result = none := by
  simp only [make_eq, makeBy, takeIf, bind, Except.bind, plain, Bool.false_eq_true, if_false] at made
  repeat' split at made
  all_goals cases made
  rfl

theorem FunctionCode.push_eq (pushed : code.push op operands = .ok after) :
    ∃ inst, make op operands = .ok inst ∧ after = code.append inst := by
  unfold push at pushed
  cases made : make op operands with
  | error fault => simp [made] at pushed
  | ok inst =>
    refine ⟨inst, rfl, ?_⟩
    simp only [made, bind, Except.bind, pure, Except.pure] at pushed
    unfold append
    rw [op_of_make made]
    split at pushed <;> rename_i isLabel <;> simp only [isLabel, if_true, if_false] <;> cases pushed <;> rfl

theorem FunctionCode.pushLocal_eq (pushed : code.pushLocal operands = .ok after) :
    ∃ inst, make .variableDecl operands = .ok inst ∧ after = code.addLocals [inst] := by
  obtain ⟨inst, made, same⟩ := bind_eq_ok.mp pushed
  cases same
  exact ⟨inst, made, by simp [addLocals]⟩

/-- Add a finished instruction to a section. -/
def Assembly.append (asm : Assembly) (part : Assembly.Section) (inst : Instruction) : Assembly :=
  match part with
  | .imports => { asm with imports := asm.imports.push inst }
  | .entryPoints => { asm with entryPoints := asm.entryPoints.push inst }
  | .executionModes => { asm with executionModes := asm.executionModes.push inst }
  | .names => { asm with names := asm.names.push inst }
  | .annotations => { asm with annotations := asm.annotations.push inst }
  | .globals => { asm with globals := asm.globals.push inst }

theorem Assembly.push_eq {asm after : Assembly} {part : Assembly.Section}
    (pushed : asm.push part op operands = .ok after) :
    ∃ inst, make op operands = .ok inst ∧ after = asm.append part inst := by
  obtain ⟨inst, made, same⟩ := bind_eq_ok.mp pushed
  cases same
  exact ⟨inst, made, rfl⟩

end Shader.Binary

namespace Shader.Lower
open Binary LowerState Instruction FunctionCode Assembly

variable {s t : LowerState} {operands : List Operand}

theorem fresh_run {id : Word} (ran : fresh.run s = .ok (id, t)) :
    id = s.out.ids.next ∧ t = { s with out := { s.out with ids := ⟨s.out.ids.next + 1⟩ } } ∧
      s.out.ids.next ≠ 0xFFFFFFFF := by
  simp only [fresh, takeId?, IdSource.take?] at ran
  by_cases full : s.out.ids.next = 0xFFFFFFFF
  · simp [full] at ran
    cases ran
  · simp [full] at ran
    exact ⟨ran.1.symm, ran.2.symm, full⟩

theorem emit_run {op : Opcode} {u : Unit} (ran : (emit op operands).run s = .ok (u, t)) :
    ∃ code inst, s.code = some code ∧ make op operands = .ok inst ∧
      t = { s with code := some (code.append inst) } := by
  simp only [emit, StateT.run_bind, StateT.run_get] at ran
  cases held : s.code with
  | none =>
    simp [held, fail] at ran
    cases ran
  | some code =>
    cases pushed : code.push op operands with
    | error fault =>
      simp [held, pushed, check, fail] at ran
      cases ran
    | ok after =>
      obtain ⟨inst, made, rfl⟩ := push_eq pushed
      simp [held, pushed, check] at ran
      cases ran
      exact ⟨code, inst, rfl, made, rfl⟩

theorem emitLocal_run {u : Unit} (ran : (emitLocal operands).run s = .ok (u, t)) :
    ∃ code inst, s.code = some code ∧ make .variableDecl operands = .ok inst ∧
      t = { s with code := some (code.addLocals [inst]) } := by
  simp only [emitLocal, StateT.run_bind, StateT.run_get] at ran
  cases held : s.code with
  | none =>
    simp [held, fail] at ran
    cases ran
  | some code =>
    cases pushed : code.pushLocal operands with
    | error fault =>
      simp [held, pushed, check, fail] at ran
      cases ran
    | ok after =>
      obtain ⟨inst, made, rfl⟩ := pushLocal_eq pushed
      simp [held, pushed, check] at ran
      cases ran
      exact ⟨code, inst, rfl, made, rfl⟩

theorem add_run {part : Section} {op : Opcode} {u : Unit} (ran : (add part op operands).run s = .ok (u, t)) :
    ∃ inst, make op operands = .ok inst ∧ t = { s with out := s.out.append part inst } := by
  simp only [add, StateT.run_bind, StateT.run_get] at ran
  cases pushed : s.out.push part op operands with
  | error fault =>
    simp [pushed, check, fail] at ran
    cases ran
  | ok out =>
    obtain ⟨inst, made, rfl⟩ := push_eq pushed
    simp [pushed, check] at ran
    cases ran
    exact ⟨inst, made, rfl⟩

end Shader.Lower

namespace Shader.Lower

open Binary Instruction LowerState Multiset Assembly

variable {s : LowerState}
variable {α : Type} {read : Pool → Except Fault α} {t : LowerState} {id : Word}

theorem ensures_fresh : Ensures fresh fun id L e => e = { taken := [(none, id)] } ∧ id ∈ L.loose := by
  intro s id t sound ran
  obtain ⟨rfl, rfl, room⟩ := fresh_run ran
  refine ⟨{ sound with }, _, ?_, fun _ covers => ⟨rfl, covers.loose _ (mem_singleton_self _)⟩⟩
  have room' : s.out.ids.next.toNat ≠ 4294967295 := fun full => room (UInt32.toNat_inj.mp full)
  have below := s.out.ids.next.toNat_lt
  exact
    { Reaches.refl s with
      grows := { Grows.refl s with }
      ids := rfl
      next := by
        simp only [UInt32.toNat_add, List.length_singleton]
        have one : (1 : UInt32).toNat = 1 := rfl
        omega }

theorem ensures_emit (op : Opcode) (operands : List Operand) : Ensures (emit op operands) fun _ _ e =>
      ∃ inst, make op operands = .ok inst ∧ e = .ofCode [inst] := by
  intro s u t sound ran
  obtain ⟨code, inst, inside, made, rfl⟩ := emit_run ran
  refine ⟨{ sound with }, .ofCode [inst], ?_, fun _ _ => ⟨inst, made, rfl⟩⟩
  exact
    { Reaches.refl s with
      grows := { Grows.refl s with }
      code := by simp [inside, Effect.ofCode, FunctionCode.extend]
      outside := fun outside => by simp [inside] at outside }

/-- The last step of a row of steps is to emit an instruction. -/
protected theorem Ensures.emit {op : Opcode} {operands : List Operand} {described : Unit → Ledger → Effect → Prop}
    (each : ∀ L inst, make op operands = .ok inst → described () L (.ofCode [inst])) :
    Ensures (emit op operands) described :=
  (ensures_emit op operands).mono fun _ L _ ⟨inst, made, same⟩ => same ▸ each L inst made

theorem ensures_emitLocal (operands : List Operand) : Ensures (emitLocal operands) fun _ _ e =>
      ∃ inst, make .variableDecl operands = .ok inst ∧ e = { locals := [inst] } := by
  intro s u t sound ran
  obtain ⟨code, inst, inside, made, rfl⟩ := emitLocal_run ran
  refine ⟨{ sound with }, { locals := [inst] }, ?_, fun _ _ => ⟨inst, made, rfl⟩⟩
  exact
    { Reaches.refl s with
      grows := { Grows.refl s with }
      code := by simp [inside]
      outside := fun outside => by simp [inside] at outside
      locals := by simpa using op_of_make made }

theorem ensures_declare (op : Opcode) (operands : List Operand) : Ensures (declare op operands) fun _ L e =>
      ∃ inst, make op operands = .ok inst ∧ e = { globals := [inst] } ∧
        ∀ id, inst.result = some id → id ∈ results L.state.out.globals.toList := by
  intro s u t sound ran
  obtain ⟨inst, made, rfl⟩ := add_run ran
  have kept : ∀ id ∈ results s.out.globals.toList, id ∈ results (s.out.globals.push inst).toList := by
    intro id held
    simp [held]
  refine ⟨⟨sound.unique, fun entry held => kept _ (sound.constants entry held),
    fun entry held => kept _ (sound.nulls entry held), fun entry held => kept _ (sound.undefs entry held),
    sound.imports, sound.silent⟩, { globals := [inst] }, ?_, fun L covers => ⟨inst, made, rfl, ?_⟩⟩
  rotate_left
  · intro id result
    apply covers.grows.declared
    simp [append, results_cons, result]
  exact
    { Reaches.refl s with
      grows := { Grows.refl s with declared := kept }
      globals := Array.toList_push }

/-- A section whose instructions define no ids. -/
def isSilent : Section → Bool
  | .imports | .globals => false
  | _ => true

theorem ensures_add_silent {part : Section} {op : Opcode} (operands : List Operand)
    (silent : isSilent part = true) (plain : op.grammar.result = false) :
    Ensures (add part op operands) fun _ _ e => e = ∅ := by
  intro s u t sound ran
  obtain ⟨inst, made, rfl⟩ := add_run ran
  have none := result_of_make made plain
  refine ⟨?_, ∅, ?_, fun _ _ => rfl⟩
  · cases part with
    | imports | globals => cases silent
    | entryPoints | executionModes | names | annotations =>
      refine ⟨sound.unique, sound.constants, sound.nulls, sound.undefs, sound.imports, ?_⟩
      intro other member
      by_cases same : other = inst
      · rw [same, none]
      · apply sound.silent
        simpa [append, same] using member
  · cases part with
    | imports | globals => cases silent
    | entryPoints | executionModes | names | annotations =>
      exact { Reaches.refl s with grows := { Grows.refl s with } }

theorem ensures_import (op : Opcode) (operands : List Operand) : Ensures (add .imports op operands) fun _ L e =>
      ∃ inst, make op operands = .ok inst ∧ e = { imports := [inst] } ∧
        ∀ id, inst.result = some id → id ∈ results L.state.out.imports.toList := by
  intro s u t sound ran
  obtain ⟨inst, made, rfl⟩ := add_run ran
  have kept : ∀ id ∈ results s.out.imports.toList, id ∈ results (s.out.imports.push inst).toList := by
    intro id held
    simp [held]
  refine ⟨⟨sound.unique, sound.constants, sound.nulls, sound.undefs,
    fun entry held => kept _ (sound.imports entry held), sound.silent⟩,
    { imports := [inst] }, ?_, fun L covers => ⟨inst, made, rfl, ?_⟩⟩
  rotate_left
  · intro id result
    apply covers.grows.imported
    simp [append, results_cons, result]
  exact
    { Reaches.refl s with
      grows := { Grows.refl s with imported := kept }
      imports := Array.toList_push }

/-- A step that changes capabilities and extensions at most. -/
theorem ensures_modify_features {change : LowerState → LowerState} (features : ∀ s, ∃ capabilities extensions,
      change s = { s with out := { s.out with capabilities, extensions } }) :
    Ensures (modify change) fun _ _ e => e = ∅ := by
  intro s u t sound ran
  obtain ⟨capabilities, extensions, same⟩ := features s
  have after : t = change s := by cases ran; rfl
  rw [same] at after
  subst after
  refine ⟨{ sound with }, ∅, ?_, fun _ _ => rfl⟩
  exact { Reaches.refl s with grows := { Grows.refl s with } }

theorem ensures_require (capability : Capability) : Ensures (require capability) fun _ _ e => e = ∅ := by
  refine ensures_modify_features fun s => ?_
  unfold pushCapability
  split
  · exact ⟨_, _, rfl⟩
  · exact ⟨_, _, rfl⟩

theorem ensures_requireExtension (name : String) : Ensures (requireExtension name) fun _ _ e => e = ∅ := by
  refine ensures_modify_features fun s => ?_
  unfold pushExtension
  split
  · exact ⟨_, _, rfl⟩
  · exact ⟨_, _, rfl⟩

theorem ensures_intern (constant : Constant) : Ensures (intern constant) fun id L e =>
      e = ∅ ∧ L.state.pool.get id = .ok constant.canonical := by
  intro s id t sound ran
  have after : id = (s.pool.insert constant).1 ∧ t = { s with pool := (s.pool.insert constant).2 } := by
    cases ran
    exact ⟨rfl, rfl⟩
  obtain ⟨rfl, rfl⟩ := after
  refine ⟨{ sound with }, ∅, ?_, fun L covers => ⟨rfl, covers.grows.pool _ _ (Pool.get_insert ..)⟩⟩
  exact { Reaches.refl s with grows := { Grows.refl s with pool := Pool.within_insert s.pool constant } }

theorem askPool_run {a : α} (ran : (askPool read).run s = .ok (a, t)) : read s.pool = .ok a ∧ t = s := by
  cases outcome : read s.pool with
  | error fault =>
    simp [askPool, outcome, check, fail] at ran
    cases ran
  | ok b =>
    simp [askPool, outcome, check] at ran
    exact ⟨congrArg _ ran.1, ran.2.symm⟩

/-- Reading the pool changes nothing. What was read stays true if it is kept by larger pools. -/
theorem ensures_askPool {known : Pool → α → Prop} (found : ∀ pool a, read pool = .ok a → known pool a)
    (kept : ∀ pool larger a, pool.Within larger → known pool a → known larger a) :
    Ensures (askPool read) fun a L e => e = ∅ ∧ known L.state.pool a := by
  intro s a t sound ran
  obtain ⟨outcome, rfl⟩ := askPool_run ran
  exact ⟨sound, ∅, .refl t, fun L covers => ⟨rfl, kept _ _ _ covers.grows.pool (found _ _ outcome)⟩⟩

variable {κ : Type}

variable {key : κ} {register : Register κ}

theorem mem_of_find? [DecidableEq κ] {table : Table κ} (found : table.find? key = some id) :
    (key, id) ∈ table.entries := by
  obtain ⟨before, after, same, -⟩ := List.lookup_eq_some_iff.mp found
  rw [same]
  simp

theorem not_mem_of_find? [DecidableEq κ] {table : Table κ} (missing : table.find? key = none) (id : Word) :
    (key, id) ∉ table.entries := by
  intro member
  have different := List.lookup_eq_none_iff.mp missing _ member
  simp at different

theorem remember_run [DecidableEq κ] {make : Lower Word} (ran : (remember register key make).run s = .ok (id, t)) :
    ((register.read s).find? key = some id ∧ t = s) ∨
      ((register.read s).find? key = none ∧ ∃ middle, make.run s = .ok (id, middle) ∧
        t = register.write ((register.read middle).insert key id) middle) := by
  simp only [remember, StateT.run_bind, StateT.run_get, pure_bind] at ran
  cases found : (register.read s).find? key with
  | some known =>
    simp only [found] at ran
    cases ran
    exact .inl ⟨rfl, rfl⟩
  | none =>
    refine .inr ⟨rfl, ?_⟩
    simp only [found, StateT.run_bind] at ran
    cases made : make.run s with
    | error failure =>
      rw [made] at ran
      cases ran
    | ok pair =>
      obtain ⟨fresh, middle⟩ := pair
      rw [made] at ran
      cases ran
      exact ⟨middle, rfl, rfl⟩

/-- A register for the ids of keys. -/
structure Registers (register : Register κ) (name : κ → Key) : Prop where
  known : ∀ s key id, (key, id) ∈ (register.read s).entries ↔ (name key, id) ∈ s.bindings
  bound : ∀ s key id, (register.write ((register.read s).insert key id) s).bindings = s.bindings + {(name key, id)}
  others : ∀ s table, ∃ values labels merges functions,
    register.write table s = { s with values, labels, merges, functions }
  apart : ∀ s out, register.read { s with out } = register.read s

theorem registers_values : Registers .values Key.value where
  known _ _ _ := mem_bindings_value.symm
  bound s key id := by
    simp only [Register.values, Table.insert, bindings, List.map_cons, ← cons_coe, ← singleton_add]
    abel
  others s table := ⟨table, s.labels, s.merges, s.functions, rfl⟩
  apart _ _ := rfl

theorem registers_labels : Registers .labels Key.label where
  known _ _ _ := mem_bindings_label.symm
  bound s key id := by
    simp only [Register.labels, Table.insert, bindings, List.map_cons, ← cons_coe, ← singleton_add]
    abel
  others s table := ⟨s.values, table, s.merges, s.functions, rfl⟩
  apart _ _ := rfl

theorem registers_merges : Registers .merges Key.merge where
  known _ _ _ := mem_bindings_merge.symm
  bound s key id := by
    simp only [Register.merges, Table.insert, bindings, List.map_cons, ← cons_coe, ← singleton_add]
    abel
  others s table := ⟨s.values, s.labels, table, s.functions, rfl⟩
  apart _ _ := rfl

theorem registers_functions : Registers .functions Key.function where
  known _ _ _ := mem_bindings_function.symm
  bound s key id := by
    simp only [Register.functions, Table.insert, bindings, List.map_cons, ← cons_coe, ← singleton_add]
    abel
  others s table := ⟨s.values, s.labels, s.merges, table, rfl⟩
  apart _ _ := rfl

/-- Entering an id for a key that has none. -/
theorem enter_sound {name : κ → Key} (keeps : Registers register name) (sound : s.Sound)
    (missing : ∀ other, (name key, other) ∉ s.bindings) :
    (register.write ((register.read s).insert key id) s).Sound := by
  obtain ⟨values, labels, merges, functions, same⟩ :=
    keeps.others s ((register.read s).insert key id)
  have bound := keeps.bound s key id
  rw [same] at bound ⊢
  refine ⟨?_, sound.constants, sound.nulls, sound.undefs, sound.imports, sound.silent⟩
  rw [bound, map_add, map_singleton, add_comm, singleton_add, nodup_cons]
  refine ⟨?_, sound.unique⟩
  intro member
  obtain ⟨⟨found, other⟩, held, rfl⟩ := mem_map.mp member
  exact missing other held

/-- A key that has no id yet gets a new one; one that has an id keeps it. -/
theorem ensures_name [DecidableEq κ] {name : κ → Key} (keeps : Registers register name) (key : κ) :
    Ensures (remember register key fresh) fun id L e =>
      (name key, id) ∈ L.state.bindings ∧ (e = ∅ ∨ e = { taken := [(some (name key), id)] }) := by
  intro s id t sound ran
  obtain ⟨found, rfl⟩ | ⟨missing, middle, made, rfl⟩ := remember_run ran
  · have held := (keeps.known _ key id).mp (mem_of_find? found)
    exact ⟨sound, ∅, .refl _, fun L covers => ⟨covers.grows.bindings _ held, .inl rfl⟩⟩
  obtain ⟨soundMiddle, e, reaches, holds⟩ := ensures_fresh s id middle sound made
  obtain ⟨taken, -⟩ := holds ⟨middle, e.loose⟩ ⟨.refl _, fun _ held => held⟩
  obtain ⟨rfl, rfl, -⟩ := fresh_run made
  have absent : ∀ other, (name key, other) ∉ s.bindings := fun other held =>
    not_mem_of_find? missing other ((keeps.known s key other).mpr held)
  refine ⟨enter_sound keeps soundMiddle absent, { taken := [(some (name key), s.out.ids.next)] }, ?_,
    fun L covers => ⟨covers.grows.bindings _ ?_, .inr rfl⟩⟩
  · obtain ⟨values, labels, merges, functions, same⟩ := keeps.others
      { s with out := { s.out with ids := ⟨s.out.ids.next + 1⟩ } }
      ((register.read { s with out := { s.out with ids := ⟨s.out.ids.next + 1⟩ } }).insert key s.out.ids.next)
    have bound := keeps.bound { s with out := { s.out with ids := ⟨s.out.ids.next + 1⟩ } } key s.out.ids.next
    subst taken
    have next := reaches.next
    rw [same] at bound ⊢
    exact
      { Reaches.refl s with
        grows :=
          { Grows.refl s with
            bindings := fun entry held => by rw [bound]; exact mem_add.mpr (.inl held) }
        bindings := by
          rw [bound]
          simp [Effect.keyed, Effect.shared, LowerState.bindings]
        ids := rfl
        next := by simpa using next }
  · rw [keeps.bound]
    simp

end Shader.Lower
