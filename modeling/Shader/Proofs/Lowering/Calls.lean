import Shader.Proofs.Lowering.Expressions

/-!
Calls and variables are lowered to code that carries out their recipe.
-/
namespace Shader.Lower

open Binary List LowerState Kind Selection

variable {allowed : Key → Prop} {m : Module} {inst : Inst}
variable {fn : BuiltinFn} {args : List Value}

theorem gathers_extendedSetId : Gathers allowed extendedSetId HasLibrary := by
  refine gathers_remember caches_imports extendedSet ?_
  refine ensures_fresh.bind fun id => (ensures_import _ _).bind fun _ => .pure ?_
  rintro L _ ⟨only, made, rfl, imported⟩ _ ⟨rfl, -⟩
  have result : only.result = some id := by rw [Instruction.make_untyped rfl rfl made]
  rw [Effect.append_empty]
  exact ⟨(Declares.ofImport result).taken, imported id result⟩

/-- Type and id of the result, if there is one. -/
def ResultOperands (m : Module) (inst : Inst) (operands : List Operand) (s : LowerState) : Prop :=
  match inst.result? with
  | none => operands = []
  | some result => ∃ ty typeWord id, resultTy m inst = .ok ty ∧ operands = [.id typeWord, .id id] ∧
      HasType ty typeWord s ∧ (Key.value result, id) ∈ s.bindings

theorem resultTy?_of_resultTy {ty : Ty} (found : resultTy m inst = .ok ty) : resultTy? m inst = .ok (some ty) := by
  unfold resultTy at found
  unfold resultTy?
  cases named : inst.result? with
  | none => simp [named] at found
  | some result =>
    cases definition : m.value result with
    | error fault => simp [named, definition] at found
    | ok held =>
      simp [named, definition] at found
      simp [definition, found]

theorem gathers_resultOperands (permits : Permits allowed inst) :
    Gathers allowed (resultOperands m inst) (ResultOperands m inst) := by
  unfold resultOperands ResultOperands
  cases named : inst.result? with
  | none => exact .pure fun _ => rfl
  | some result =>
    refine (Gathers.check _).bind fun definition => (gathers_typeId m _).bind fun typeWord => ?_
    refine (gathers_valueId m fun v same => ?_).bind fun id => .pure fun s bound typed found => ?_
    · cases same
      exact permits.results result (mem_of_mem_head? named)
    · refine ⟨definition.ty, typeWord, id, ?_, rfl, typed, bound⟩
      simp [resultTy, named, found]

theorem gathers_subgroupScope (previous : Option Word) : Gathers allowed subgroupScope fun operand s =>
      Carries s previous (.uniform .u32 (.u32 Scope.subgroup)) operand := by
  refine (gathers_wordConstantId _).bind fun id => .pure ?_
  rintro s ⟨constant, stored, declared⟩
  exact .uniform (.inr (.inl rfl)) declared stored

theorem gathers_builtinOperands (fn : BuiltinFn) (args : List Value) (previous : Option Word) :
    Gathers allowed (builtinOperands m fn args) fun operands s =>
      Forall₂ (Carries s previous) (fixedSources fn args) operands := by
  cases fn with
  | subgroupBallot =>
    simp only [builtinOperands, fixedSources]
    refine (gathers_subgroupScope previous).bind fun scope => .ite (fun empty => ?_) fun full => ?_
    · refine (gathers_intern _).bind fun always => (gathers_constantId m always).bind fun id => ?_
      refine .pure fun s declared stored carried => ?_
      rw [if_pos empty]
      exact .cons carried (.cons (.uniform (.inl rfl) declared stored) .nil)
    · refine .pure fun s carried => ?_
      rw [if_neg full]
      exact .cons carried .nil
  | subgroupBroadcast =>
    simp only [builtinOperands, fixedSources]
    exact (gathers_subgroupScope previous).bind fun scope => .pure fun s carried => .cons carried .nil
  | _ => exact .pure fun _ => .nil

/-- An operation that has a result exactly when the instruction has one. -/
theorem performs_optional {op : Opcode} {result operands : List Operand} {sources : List Source}
    {L : Ledger} {only : Instruction} {ty : Option Ty} (ordinary : op.isOrdinary = true)
    (made : Instruction.make op (result ++ operands) = .ok only)
    (resulting : ResultOperands m inst result L.state)
    (carried : Forall₂ (Carries L.state none) sources operands)
    (typed : resultTy? m inst = .ok ty)
    (found : recipe m L.state.pool inst = .ok (.perform none ⟨op, ty, sources⟩))
    (fits : inst.Shaped → op.grammar.resultType = op.grammar.result ∧
      inst.results.length = if op.grammar.result then 1 else 0) :
    Performs allowed m inst L (.ofCode [only]) := by
  refine .of_shaped rfl ?_ rfl fun shaped => ?_
  · simpa [Effect.ofCode, Instruction.op_of_make made] using ordinary
  obtain ⟨both, length⟩ := fits shaped
  unfold ResultOperands at resulting
  cases named : inst.result? with
  | none =>
    rw [named] at resulting
    have results : inst.results = [] := head?_eq_none_iff.mp named
    have plain : op.grammar.result = false := by
      cases has : op.grammar.result with
      | false => rfl
      | true => simp [results, has] at length
    have untyped : ty = none := by
      simpa [resultTy?, named, eq_comm] using typed
    subst untyped resulting
    have emitted := emitted_plain (both.trans plain) plain made carried
    refine .of_operates found ordinary ?_ (delivers_nothing results)
    rw [results]
    exact operates_nothing emitted
  | some value =>
    rw [named] at resulting
    obtain ⟨target, typeWord, id, targetTy, rfl, hasType, bound⟩ := resulting
    have computes : op.grammar.result = true := by
      cases has : op.grammar.result with
      | true => rfl
      | false =>
        rw [has] at length
        have results : inst.results = [] := length_eq_zero_iff.mp length
        simp [Inst.result?, results] at named
    obtain rfl : some target = ty := by
      simpa [resultTy?_of_resultTy targetTy] using typed
    rw [computes, if_pos rfl] at length
    have emitted := emitted_typed (both.trans computes) computes made hasType carried
    have results := results_of_length length named
    exact .of_operates found ordinary (operates_value results emitted bound) (delivers_value results bound)

/-- Barriers have no result, and every other library function has one. -/
def FormFits (fn : BuiltinFn) : Form → Prop
  | .barrier _ => fn.isBarrier = true
  | .instruction op => fn.isBarrier = false ∧ Computes op
  | .extended _ => fn.isBarrier = false

theorem formFits_builtin? {ty : Ty} {form : Form} (chosen : builtin? fn ty = some form) :
    FormFits fn form := by
  have extended : fn.isBarrier = false → (∃ code, form = .extended code) → FormFits fn form := by
    rintro proper ⟨code, rfl⟩
    exact proper
  cases fn with
  | abs | sign | clamp | max | min =>
    refine extended rfl ?_
    simp only [builtin?, bySignedResult, byResult] at chosen
    repeat' split at chosen
    all_goals cases chosen
    all_goals exact ⟨_, rfl⟩
  | extractBits =>
    simp only [builtin?] at chosen
    repeat' split at chosen
    all_goals cases chosen
    all_goals exact ⟨rfl, by decide⟩
  | arrayLength | atomicAdd | countLeadingZeros | dot | firstLeadingBit | select | textureDimensions
  | textureLoad | textureSample | textureStore => cases chosen
  | storageBarrier | textureBarrier | workgroupBarrier =>
    cases chosen
    rfl
  | all | any | countOneBits | dpdx | dpdxCoarse | dpdxFine | dpdy | dpdyCoarse | dpdyFine | fwidth
  | fwidthCoarse | fwidthFine | insertBits | quantizeToF16 | reverseBits | subgroupBallot
  | subgroupBroadcast | textureNumLevels | textureNumSamples | transpose =>
    cases chosen
    exact ⟨rfl, by decide⟩
  | _ =>
    cases chosen
    exact extended rfl ⟨_, rfl⟩

theorem performs_form (permits : Permits allowed inst) (kind : inst.kind = .builtin fn args) {form : Form}
    (formed : FormFits fn form) (ty : Option Ty) (typed : resultTy? m inst = .ok ty) :
    Ensures (emitForm m inst fn args form) fun _ L e =>
      recipe m L.state.pool inst = .ok (.perform none (callBy ty fn args form)) →
      Performs allowed m inst L e := by
  have fits : ∀ v, .ssa v ∈ args → allowed (.value v) := fun v member =>
    permits.operands v (by rw [kind]; exact member)
  cases form with
  | barrier memory =>
    refine .after (gathers_wordConstantId _) fun scope => .after (gathers_wordConstantId _) fun order => ?_
    refine .emit fun L only made => ?_
    rintro ⟨second, stored', declared'⟩ ⟨first, stored, declared⟩ found
    have carried : Forall₂ (Carries L.state none)
        [.uniform .u32 (.u32 Scope.workgroup), .uniform .u32 (.u32 Scope.workgroup),
          .uniform .u32 (.u32 (Semantics.acquireRelease ||| memory))]
        [.scope scope, .scope scope, .semantics order] :=
      .cons (.uniform (.inr (.inl rfl)) declared stored) (.cons (.uniform (.inr (.inl rfl)) declared stored)
          (.cons (.uniform (.inr (.inr rfl)) declared' stored') .nil))
    have emitted := emitted_plain rfl rfl made carried
    refine .of_shaped rfl ?_ rfl fun shaped => ?_
    · simp [Effect.ofCode, emitted.op, Opcode.isOrdinary, Opcode.isTerminator]
    · have barrier : fn.isBarrier = true := formed
      have results : inst.results = [] := by simpa [Inst.Shaped, admits, kind, barrier] using shaped
      refine .of_operates found rfl ?_ (delivers_nothing results)
      rw [results]
      exact operates_nothing emitted
  | instruction op =>
    obtain ⟨proper, hasType, hasResult, ordinary⟩ := formed
    refine .after (gathers_resultOperands permits) fun result => ?_
    refine .after (gathers_builtinOperands fn args none) fun fixed => ?_
    refine .after (gathers_operandIds none fits) fun argIds => .emit fun L only made => ?_
    intro carried carriedFixed resulting found
    rw [append_assoc] at made
    refine performs_optional ordinary made resulting (rel_append carriedFixed carried) typed found
      fun shaped => ⟨hasType.trans hasResult.symm, ?_⟩
    simpa [Inst.Shaped, admits, kind, proper, hasResult] using shaped
  | extended code =>
    have proper : fn.isBarrier = false := formed
    refine .after (gathers_resultOperands permits) fun result => .after gathers_extendedSetId fun set => ?_
    refine .after (gathers_builtinOperands fn args none) fun fixed => ?_
    refine .after (gathers_operandIds none fits) fun argIds => .emit fun L only made => ?_
    intro carried carriedFixed imported resulting found
    simp only [append_assoc, cons_append, nil_append] at made
    refine performs_optional rfl made resulting
      (.cons (.library imported) (.cons (.number code) (rel_append carriedFixed carried))) typed found
      fun shaped => ⟨rfl, ?_⟩
    have one : inst.results.length = 1 := by simpa [Inst.Shaped, admits, kind, proper] using shaped
    exact one

/-- The part of a library call after its result type is known. -/
theorem performs_builtinOf (permits : Permits allowed inst) (kind : inst.kind = .builtin fn args) (ty : Option Ty)
    (typed : resultTy? m inst = .ok ty) (present : ty.isSome = inst.result?.isSome) :
    Ensures (do
      match ← identityArgument? m inst fn (ty.getD .void) args with
      | some (result, arg) => aliasTo m result arg
      | none =>
        match builtin? fn (ty.getD .void) with
        | none => fail (.builtinFunction fn)
        | some form => do
          if let some capability := builtinCapability? fn then
            require capability
          emitForm m inst fn args form) fun _ => Performs allowed m inst := by
  have called : Ensures (match builtin? fn (ty.getD .void) with
        | none => fail (.builtinFunction fn)
        | some form => do
          if let some capability := builtinCapability? fn then
            require capability
          emitForm m inst fn args form) fun _ L e =>
      identityOf m L.state.pool fn ty args = .ok none → Performs allowed m inst L e := by
    cases chosen : builtin? fn (ty.getD .void) with
    | none => exact .fail _
    | some form =>
      have formed := performs_form permits kind (formFits_builtin? chosen) ty typed
      have emitted : Ensures (emitForm m inst fn args form) fun _ L e =>
          identityOf m L.state.pool fn ty args = .ok none → Performs allowed m inst L e := by
        refine formed.mono fun _ L e performs proper => performs ?_
        simp [recipe, kind, typed, proper, chosen]
      dsimp only
      cases builtinCapability? fn with
      | none => exact emitted
      | some capability =>
        exact .after (gathers_require capability) fun _ => emitted.mono fun _ _ _ held _ => held
  cases args with
  | nil => exact called.mono fun _ L e performs => performs rfl
  | cons arg rest =>
    unfold identityArgument?
    rw [bind_assoc]
    refine .after (gathers_typeOf m arg) fun argType => ?_
    cases named : inst.result? with
    | none =>
      rw [named] at present
      obtain rfl : ty = none := by cases ty <;> simp_all
      rw [pure_bind]
      refine called.mono fun _ L e performs argTy => performs ?_
      simp [identityOf, argTy]
    | some result =>
      rw [named] at present
      obtain ⟨target, rfl⟩ : ∃ target, ty = some target := Option.isSome_iff_exists.mp present
      rw [pure_bind]
      by_cases same : isIdentity fn target argType = true
      · have chosen : (if isIdentity fn ((some target).getD .void) argType then some (result, arg)
            else none) = some (result, arg) := if_pos same
        rw [chosen]
        have member : arg ∈ inst.kind.operands := by simp [kind, operands]
        refine (performs_aliasTo permits named member fun shaped => ?_).mono fun _ L e performs argTy => performs ?_
        · have proper : fn.isBarrier = false := by
            cases fn <;> first | rfl | cases same
          simpa [Inst.Shaped, admits, kind, proper] using shaped
        · simp [recipe, kind, typed, identityOf, argTy, same]
      · have chosen : (if isIdentity fn ((some target).getD .void) argType then some (result, arg)
            else none) = none := if_neg same
        rw [chosen]
        refine called.mono fun _ L e performs argTy => performs ?_
        simp [identityOf, argTy, same]

theorem performs_builtin (permits : Permits allowed inst) (kind : inst.kind = .builtin fn args) :
    Ensures (emitBuiltin m inst fn args) fun _ => Performs allowed m inst := by
  unfold emitBuiltin
  cases named : inst.result? with
  | none =>
    have typed : resultTy? m inst = .ok none := by simp [resultTy?, named]
    exact performs_builtinOf permits kind none typed (by simp [named])
  | some result =>
    dsimp only
    cases found : m.value result with
    | error fault => exact .fail_bind _
    | ok definition =>
      have typed : resultTy? m inst = .ok (some definition.ty) := by
        simp [resultTy?, named, found]
      simp only [check, pure_bind]
      exact performs_builtinOf permits kind (some definition.ty) typed (by simp [named])

theorem target_ordinary {fn : TargetFn} {op : Opcode} (chosen : target? fn = some op) :
    op.isOrdinary = true ∧ op.grammar.resultType = op.grammar.result := by
  cases fn <;> cases chosen <;> decide

theorem performs_targetCall (permits : Permits allowed inst) {fn : TargetFn} (kind : inst.kind = .targetCall fn args) :
    Ensures (emitTargetCall m inst fn args) fun _ => Performs allowed m inst := by
  have fits : ∀ v, .ssa v ∈ args → allowed (.value v) := fun v member =>
    permits.operands v (by rw [kind]; exact member)
  unfold emitTargetCall
  cases chosen : target? fn with
  | none => exact .fail _
  | some op =>
    obtain ⟨ordinary, both⟩ := target_ordinary chosen
    have called : Ensures (do
        (targetCapabilities fn).forM require
        emit op ((← resultOperands m inst) ++ (← operandIds m args))) fun _ => Performs allowed m inst := by
      refine .after (Gathers.forM _ fun capability _ => gathers_require capability) fun _ => ?_
      refine .after (gathers_resultOperands permits) fun result => ?_
      refine .after (gathers_operandIds none fits) fun argIds => .emit fun L only made carried resulting _ => ?_
      have typed : ∃ ty, resultTy? m inst = .ok ty := by
        unfold ResultOperands at resulting
        cases named : inst.result? with
        | none => exact ⟨none, by simp [resultTy?, named]⟩
        | some result =>
          rw [named] at resulting
          obtain ⟨ty, -, -, found, -⟩ := resulting
          exact ⟨some ty, resultTy?_of_resultTy found⟩
      obtain ⟨ty, typed⟩ := typed
      refine performs_optional ordinary made resulting carried typed ?_ fun shaped => ⟨both, ?_⟩
      · simp [recipe, kind, chosen, typed]
      · simpa [Inst.Shaped, admits, kind, chosen] using shaped
    dsimp only
    cases targetExtension? fn with
    | none => exact called
    | some extension =>
      exact .after (gathers_requireExtension extension) fun _ => called.mono fun _ _ _ held _ => held

theorem performs_call (permits : Permits allowed inst) {target : FuncId} (kind : inst.kind = .call target args) :
    Ensures (emitCall m inst target args) fun _ => Performs allowed m inst := by
  have fits : ∀ v, .ssa v ∈ args → allowed (.value v) := fun v member =>
    permits.operands v (by rw [kind]; exact member)
  have callee := permits.callee target args kind
  have short : inst.Shaped → inst.results.length ≤ 1 := fun shaped => by
    simpa [Inst.Shaped, admits, kind] using shaped
  unfold emitCall
  cases named : inst.result? with
  | none =>
    have results : inst.results = [] := head?_eq_none_iff.mp named
    refine .after (gathers_typeId m .void) fun typeWord => ?_
    simp only [pure_bind]
    refine .taking (fun id => (?_ : Ensures _ fun _ L e => id ∈ L.loose → (HasType .void typeWord L.state →
      Operates allowed L {id} 0 none ⟨.functionCall, some .void, .function target :: args.map .operand⟩ (some id) e)))
      fun id _ L e loose operates typed => ?_
    · refine .after (gathers_functionId callee) fun function => ?_
      refine .after (gathers_operandIds none fits) fun argIds => .emit fun L only made carried bound _ typed => ?_
      exact operates_extra (emitted_typed rfl rfl made typed (.cons (.function bound) carried))
    · have delivers : Delivers L inst (some id) := by
        unfold Delivers
        rw [results]
        rintro _ ⟨⟩
        exact loose
      refine .of_operates ?_ rfl (by rw [results]; exact (operates typed).taken) delivers
      simp [recipe, kind, resultTy?, named]
  | some result =>
    refine .after (gathers_resultTypeId m inst) fun typeWord => ?_
    refine .after (gathers_resultId m permits.results) fun id => ?_
    simp only [pure_bind]
    refine .after (gathers_functionId callee) fun function => ?_
    refine .after (gathers_operandIds none fits) fun argIds => .emit fun L only made => ?_
    rintro carried bound hasId ⟨ty, targetTy, typed⟩
    refine performs_computation (by decide) made typed (fun shaped => ?_) hasId (.cons (.function bound) carried) ?_
    · have some_result : inst.results ≠ [] := by
        intro results
        simp [Inst.result?, results] at named
      have positive := length_pos_iff.mpr some_result
      have bounded := short shaped
      omega
    · simp [recipe, kind, resultTy?_of_resultTy targetTy]

end Shader.Lower
