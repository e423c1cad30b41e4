import Shader.Proofs.Lowering.Body

/-!
The lowering of a whole module.

Functions are lowered one at a time, each from its declaration to its last block. What holds of the code of
every function is said in view of the state that the lowering ends in, where every id is settled.
-/
namespace Shader.Binary.FunctionCode

theorem stream_extend (code : FunctionCode) (insts : List Instruction) :
    (code.extend insts).stream = code.stream ++ insts := by
  induction insts generalizing code with
  | nil => simp
  | cons inst rest ih =>
    rw [extend, List.foldl_cons, ← extend, ih, stream_append]
    simp

/-- Adding instructions to the blocks changes nothing else. -/
theorem extend_others (code : FunctionCode) (insts : List Instruction) :
    (code.extend insts).declaration = code.declaration ∧ (code.extend insts).params = code.params ∧
      (code.extend insts).locals = code.locals := by
  induction insts generalizing code with
  | nil => exact ⟨rfl, rfl, rfl⟩
  | cons inst rest ih =>
    have same := code.append_others inst
    obtain ⟨declaration, params, locals⟩ := ih (code.append inst)
    exact ⟨declaration.trans same.1, params.trans same.2.1, locals.trans same.2.2⟩

/-- The local variables are among the instructions of the first block. -/
theorem instructions_perm (code : FunctionCode) : code.instructions.Perm
    (code.declaration :: code.params ++ (code.locals.toList ++ code.stream) ++ [ending]) := by
  obtain ⟨first, rest, opened⟩ : ∃ first rest, code.blocks = first :: rest :=
    List.exists_cons_of_ne_nil (by simp [blocks])
  rw [instructions, stream, opened]
  refine .append_right _ (.append_left _ ?_)
  simp only [withLocals, List.flatMap_cons, BasicBlock.instructions, Array.toList_append, List.cons_append,
    List.append_assoc]
  exact List.perm_middle.symm

end Shader.Binary.FunctionCode

namespace Shader.Lower

open Binary Instruction List LowerState FunctionCode

variable {ref : FuncId} {start : FunctionCode} {function : Function} {L : Ledger} {e : Effect}
variable {used : List ValueId} {counted counted' : Multiset Key → Prop} {described' : List FunctionCode → Prop}

theorem results_instructions (code : FunctionCode) : results code.instructions =
      results (code.declaration :: code.params) + results code.locals.toList + results code.stream := by
  have same : results code.instructions = results _ := Multiset.coe_eq_coe.mpr (code.instructions_perm.filterMap _)
  have ending : results [ending] = 0 := rfl
  rw [same, results_append, results_append, results_append, ending]
  abel

variable {m : Module} {allowed : Key → Prop}

theorem gathers_executionModel (function : Function) (id : Word) :
    Gathers allowed (executionModel function id) fun _ _ => True :=
  (has_executionModel : Has (Silently allowed) _).has

theorem interfaceVariable?_eq_some {inst : Inst} {result : ValueId}
    {declaration : Variable} (found : interfaceVariable? m used inst = .ok (some (result, declaration))) :
    inst.result? = some result := by
  unfold interfaceVariable? at found
  split at found
  · rename_i named
    obtain ⟨definition, -, rest⟩ := bind_eq_ok.mp found
    split at rest
    · split at rest
      · cases rest
        exact named
      · cases rest
    · cases rest
  · cases found

theorem gathers_interfaceId {entryPoint : Word} {root : InstId}
    (fits : ∀ inst result, m.inst root = .ok inst → inst.result? = some result → allowed (.value result)) :
    Gathers allowed (interfaceId m used entryPoint root) fun operands s => ∃ inst interface,
      m.inst root = .ok inst ∧ interfaceVariable? m used inst = .ok interface ∧
        Forall₂ (fun entry operand => ∃ id, (Key.value entry.1, id) ∈ s.bindings ∧ operand = .id id)
          interface.toList operands := by
  unfold interfaceId
  refine .check_next fun interface found => ?_
  obtain ⟨inst, held, isVariable⟩ := bind_eq_ok.mp found
  cases interface with
  | none => exact .pure fun _ => ⟨inst, none, held, isVariable, .nil⟩
  | some pair =>
    obtain ⟨result, declaration⟩ := pair
    have named := interfaceVariable?_eq_some isVariable
    refine (gathers_valueId m fun v same => ?_).bind fun id => ?_
    · cases same
      exact fits inst _ held named
    · have mode : Gathers allowed (add .executionModes .executionMode
          [.id entryPoint, .literal ExecutionMode.depthReplacing]) fun _ _ => True := gathers_add _ rfl rfl
      refine .ite (fun _ => mode.bind fun _ => ?_) fun _ => ?_
      · exact .pure fun _ _ bound => ⟨inst, _, held, isVariable, .cons ⟨id, bound, rfl⟩ .nil⟩
      · exact .pure fun _ bound => ⟨inst, _, held, isVariable, .cons ⟨id, bound, rfl⟩ .nil⟩

theorem gathers_entryPoint (function : Function) (id : Word)
    (fits : ∀ b, m.rootBlock = .ok b → ∀ root ∈ b.insts, ∀ inst result, m.inst root = .ok inst →
      inst.result? = some result → allowed (.value result)) :
    Gathers allowed (emitEntryPoint m function id) fun _ _ => True := by
  unfold emitEntryPoint
  refine (gathers_executionModel function id).bind fun model => ?_
  refine (Gathers.check _).bind fun used => ?_
  refine .check_next fun b found => ?_
  refine (Gathers.mapM b.insts fun root member => gathers_interfaceId (fits b found root member)).bind fun ids => ?_
  have added : ∀ operands, Gathers allowed (add .entryPoints .entryPoint operands) fun _ _ => True :=
    fun operands => gathers_add operands rfl rfl
  exact (added _).mono fun _ _ _ _ _ _ => trivial

theorem gathers_signatureId (signature : Signature) : Gathers allowed (signatureId signature) fun _ _ => True := by
  refine gathers_remember caches_signatures signature ?_
  exact (gathers_declared fun id => .untyped rfl rfl _).mono fun _ _ _ => trivial

/-- A function before anything is added to its first block. -/
structure Opens (m : Module) (s : LowerState) (ref : FuncId) (function : Function) (code : FunctionCode) :
    Prop where
  found : m.function ref = .ok function
  declaration : ∃ ty id signature, (Key.function ref, id) ∈ s.bindings ∧
    code.declaration = ⟨.function, some ty, some id, [.literal noControl, .id signature]⟩
  params : Forall₂ (fun param inst => ∃ ty id, (Key.value param, id) ∈ s.bindings ∧
    inst = (⟨.functionParameter, some ty, some id, []⟩ : Instruction)) function.params code.params
  blocks : ∃ label, (Key.label function.entry, label) ∈ s.bindings ∧
    code = ⟨code.declaration, code.params, #[], #[], ⟨labelled label, #[]⟩⟩

/-- Declare a function and its parameters. -/
def startFunction (m : Module) (ref : FuncId) : Lower (Function × FunctionCode) := do
  let function ← check (m.function ref)
  if function.params.length > maxParameters then
    throw (.tooManyParameters function.name)
  let id ← functionId ref
  nameId id function.name
  if function.stage ≠ .none then
    emitEntryPoint m function id
  let returnType ← typeId m function.returnType
  let params ← function.params.mapM (emitParameter m)
  let signature ← signatureId ⟨returnType, params.map Prod.snd⟩
  let declaration ← check (make .function [.id returnType, .id id, .literal noControl, .id signature])
  let label ← labelId function.entry
  let code ← check (FunctionCode.start declaration label (params.map Prod.fst))
  return (function, code)

/-- Run a step inside a function and add the finished function to the module. -/
def inFunction (code : FunctionCode) (body : Lower Unit) : Lower Unit := do
  modify fun state => { state with code := some code }
  body
  modify fun state =>
    { state with code := none, out := state.code.toList.foldl Assembly.pushFunction state.out }

theorem emitFunction_eq (m : Module) (options : Options) (ref : FuncId) : emitFunction m options ref = (do
      let (function, code) ← startFunction m ref
      inFunction code (emitBody m options function.entry)) := by
  unfold emitFunction startFunction inFunction
  rw [bind_assoc]
  congr; funext function
  by_cases many : function.params.length > maxParameters
  · simp only [many, if_true]
    rfl
  · by_cases plain : function.stage ≠ .none
    · simp only [many, if_false, plain, if_true, bind_assoc, pure_bind, ne_eq, not_false_eq_true]
    · simp only [many, if_false, plain, bind_assoc, pure_bind]

theorem gathers_parameter {param : ValueId} (fits : allowed (.value param)) :
    Gathers allowed (emitParameter m param) fun pair s => ∃ ty id, (Key.value param, id) ∈ s.bindings ∧
      pair.1 = (⟨.functionParameter, some ty, some id, []⟩ : Instruction) := by
  unfold emitParameter
  refine (gathers_valueId m fun v same => by cases same; exact fits).bind fun id => ?_
  refine (Gathers.check _).bind fun value => (gathers_typeId m _).bind fun typeWord => ?_
  refine (Gathers.check _).bind fun declaration => ?_
  have same : make .functionParameter [.id typeWord, .id id] = .ok declaration →
      declaration = ⟨.functionParameter, some typeWord, some id, []⟩ := make_typed rfl rfl
  cases value.name with
  | none => exact .pure fun s made _ _ bound => ⟨typeWord, id, bound, same made⟩
  | some name =>
    refine (gathers_nameId id name).bind fun _ => .pure ?_
    exact fun s _ made _ _ bound => ⟨typeWord, id, bound, same made⟩

/-- What a lowering may refer to for the sake of a function, its blocks aside. -/
structure PermitsFunction (m : Module) (allowed : Key → Prop) (ref : FuncId) : Prop where
  function : allowed (.function ref)
  params : ∀ function, m.function ref = .ok function → ∀ param ∈ function.params, allowed (.value param)
  entry : ∀ function, m.function ref = .ok function → allowed (.label function.entry)
  roots : ∀ b, m.rootBlock = .ok b → ∀ root ∈ b.insts, ∀ inst result, m.inst root = .ok inst →
    inst.result? = some result → allowed (.value result)

theorem gathers_startFunction (permits : PermitsFunction m allowed ref) :
    Gathers allowed (startFunction m ref) fun pair s => Opens m s ref pair.1 pair.2 := by
  unfold startFunction
  refine .check_next fun function found => ?_
  refine .ite (fun _ => Ensures.throw_bind _) fun _ => ?_
  refine (gathers_functionId permits.function).bind fun id => ?_
  refine (gathers_nameId id function.name).bind fun _ => ?_
  suffices opened : Gathers allowed _ fun (pair : Function × FunctionCode) s => (Key.function ref, id) ∈ s.bindings →
        Opens m s ref pair.1 pair.2 from
    .ite (fun _ => (gathers_entryPoint function id permits.roots).bind fun _ =>
      opened.mono fun _ _ held _ _ bound => held bound) fun _ => opened.mono fun _ _ held _ bound => held bound
  refine (gathers_typeId m _).bind fun returnType => ?_
  refine (Gathers.mapM function.params fun param member =>
    gathers_parameter (permits.params function found param member)).bind fun params => ?_
  refine (gathers_signatureId _).bind fun signature => (Gathers.check _).bind fun declaration => ?_
  refine (gathers_labelId (permits.entry function found)).bind fun label => ?_
  refine (Gathers.check _).bind fun code => .pure ?_
  intro s started labelBound made _ declared _ bound
  obtain ⟨first, firstMade, same⟩ := bind_eq_ok.mp started
  have plain : make .label [.id label] = .ok first := firstMade
  have isLabel : first = labelled label := make_untyped rfl rfl plain
  have isDeclaration : declaration = ⟨.function, some returnType, some id,
    [.literal noControl, .id signature]⟩ := make_typed rfl rfl made
  cases same
  exact
    { found := found
      declaration := ⟨returnType, id, signature, bound, isDeclaration⟩
      params := by
        rw [forall₂_map_right_iff]
        exact declared
      blocks := ⟨label, labelBound, by rw [isLabel]⟩ }

/-- What a step does inside a function, once the function is added to the module. -/
def Effect.inFunction (e : Effect) (start : FunctionCode) : Effect :=
  { e with code := [], locals := [], functions := [(start.addLocals e.locals).extend e.code] }

/-- As `Ensures`, for a step that starts and ends outside of functions. -/
def EnsuresOutside {α : Type} (step : Lower α) (described : α → Ledger → Effect → Prop) : Prop :=
  ∀ s a t, s.Sound → s.code = none → step.run s = .ok (a, t) →
    t.Sound ∧ t.code = none ∧ ∃ e, s.Reaches e t ∧ ∀ L : Ledger, L.Covers t e → described a L e

namespace EnsuresOutside

variable {α β : Type} {step : Lower α} {described weaker : α → Ledger → Effect → Prop}
variable {next : α → Lower β} {later : β → Ledger → Effect → Prop}

theorem of_ensures (ensured : Ensures step described) : EnsuresOutside step described := by
  intro s a t sound outside ran
  obtain ⟨soundAfter, e, reaches, holds⟩ := ensured s a t sound ran
  exact ⟨soundAfter, by rw [reaches.code, outside]; rfl, e, reaches, holds⟩

theorem mono (ensured : EnsuresOutside step described)
    (implied : ∀ a L e, described a L e → weaker a L e) : EnsuresOutside step weaker := by
  intro s a t sound outside ran
  obtain ⟨soundAfter, still, e, reaches, holds⟩ := ensured s a t sound outside ran
  exact ⟨soundAfter, still, e, reaches, fun L covers => implied a L e (holds L covers)⟩

/-- The second step need only be described for results that the first one can have. -/
theorem bind_fact (fact : α → Prop) (first : EnsuresOutside step described) (sure : ∀ a L e, described a L e → fact a)
    (second : ∀ a, fact a → EnsuresOutside (next a) fun b L e => ∀ e', described a L e' → later b L (e' ++ e)) :
    EnsuresOutside (step >>= next) later := by
  intro s b u sound outside ran
  obtain ⟨a, t, middle, ran⟩ := run_bind_eq_ok.mp ran
  obtain ⟨soundMiddle, still, e', reachesMiddle, holdsMiddle⟩ := first s a t sound outside middle
  have holds : fact a := sure a ⟨t, e'.loose⟩ e' (holdsMiddle _ ⟨.refl _, fun _ held => held⟩)
  obtain ⟨soundEnd, stillEnd, e, reachesEnd, holdsEnd⟩ := second a holds t b u soundMiddle still ran
  refine ⟨soundEnd, stillEnd, e' ++ e, reachesMiddle.trans reachesEnd, fun L covers => ?_⟩
  obtain ⟨early, late⟩ := covers.split reachesEnd.grows
  exact holdsEnd L late e' (holdsMiddle L early)

theorem bind (first : EnsuresOutside step described)
    (second : ∀ a, EnsuresOutside (next a) fun b L e => ∀ e', described a L e' → later b L (e' ++ e)) :
    EnsuresOutside (step >>= next) later :=
  bind_fact (fun _ => True) first (fun _ _ _ _ => trivial) fun a _ => second a

theorem forM {f : α → Lower Unit} (list : List α) (each : ∀ a ∈ list, EnsuresOutside (f a) fun _ => described a) :
    EnsuresOutside (list.forM f) fun _ L e =>
      Each (fun a (_ : Unit) e => described a L e) list (list.map fun _ => ()) e := by
  induction list with
  | nil => exact of_ensures (.pure fun L => .nil)
  | cons a as ih =>
    refine (each a (by simp)).bind fun _ => ?_
    refine (ih fun a' member => each a' (by simp [member])).mono fun _ L rest tail e head => ?_
    exact Each.cons head tail

end EnsuresOutside

theorem ensures_inFunction {body : Lower Unit} {described : Unit → Ledger → Effect → Prop}
    (ensured : Ensures body described) (single : ∀ L e, described () L e → e.functions = []) :
    EnsuresOutside (inFunction start body) fun _ L e' =>
      ∃ e, e' = e.inFunction start ∧ (∀ inst ∈ e.locals, inst.op = .variableDecl) ∧ described () L e := by
  intro s _ t sound outside ran
  have soundInside : ({ s with code := some start } : LowerState).Sound :=
    ⟨sound.unique, sound.constants, sound.nulls, sound.undefs, sound.imports, sound.silent⟩
  cases middle : body.run { s with code := some start } with
  | error failure =>
    have failed : (inFunction start body).run s = .error failure := by
      simp only [inFunction, StateT.run_bind, StateT.run_modify, pure_bind, middle]
      rfl
    cases failed.symm.trans ran
  | ok pair =>
    obtain ⟨⟨⟩, u⟩ := pair
    obtain ⟨soundAfter, e, reaches, holds⟩ := ensured _ _ _ soundInside middle
    have alone : e.functions = [] := single _ _ (holds ⟨u, e.loose⟩ ⟨.refl _, fun _ held => held⟩)
    have code : u.code = some ((start.addLocals e.locals).extend e.code) := reaches.code
    have after : t = { u with
        code := none, out := u.out.pushFunction ((start.addLocals e.locals).extend e.code) } := by
      have finished : (inFunction start body).run s = .ok ((), { u with
          code := none, out := u.out.pushFunction ((start.addLocals e.locals).extend e.code) }) := by
        simp only [inFunction, StateT.run_bind, StateT.run_modify, pure_bind, middle]
        change Except.ok _ = _
        rw [code]
        rfl
      cases finished.symm.trans ran
      rfl
    subst after
    refine ⟨{ soundAfter with }, rfl, e.inFunction start, ?_,
      fun L covers => ⟨e, rfl, reaches.locals, holds L ⟨{ covers.grows with }, covers.loose⟩⟩⟩
    exact
      { reaches with
        grows := { reaches.grows with }
        code := by simp [outside]
        outside := fun _ => ⟨rfl, rfl⟩
        functions := by
          have functions := reaches.functions
          simp [Assembly.pushFunction, Effect.inFunction, functions, alone]
        locals := by simp [Effect.inFunction] }

/-- What the declaration of a function defines. -/
def functionKeys (ref : FuncId) (function : Function) : List Key :=
  .function ref :: .label function.entry :: function.params.map .value

theorem Opens.defines {s : LowerState} (opens : Opens m s ref function start) :
    ∃ defined : Multiset (Key × Word), (∀ entry ∈ defined, entry ∈ s.bindings) ∧
      results (start.declaration :: start.params) + results start.stream = defined.map Prod.snd ∧
      defined.map Prod.fst = ↑(functionKeys ref function) := by
  obtain ⟨ty, id, signature, bound, declaration⟩ := opens.declaration
  obtain ⟨label, labelBound, same⟩ := opens.blocks
  have params : ∀ {params : List ValueId} {insts : List Instruction},
      Forall₂ (fun param inst => ∃ ty id, (Key.value param, id) ∈ s.bindings ∧
        inst = (⟨.functionParameter, some ty, some id, []⟩ : Instruction)) params insts →
      ∃ defined : Multiset (Key × Word), (∀ entry ∈ defined, entry ∈ s.bindings) ∧
        results insts = defined.map Prod.snd ∧ defined.map Prod.fst = ↑(params.map Key.value) := by
    intro params insts each
    induction each with
    | nil => exact ⟨0, by simp, rfl, rfl⟩
    | @cons param inst _ _ head _ ih =>
      obtain ⟨ty, id, bound, rfl⟩ := head
      obtain ⟨defined, within, ids, keys⟩ := ih
      refine ⟨(Key.value param, id) ::ₘ defined, ?_, ?_, ?_⟩
      · simpa [bound] using within
      · simp [results_cons, ids]
      · simp [keys]
  obtain ⟨defined, within, ids, keys⟩ := params opens.params
  refine ⟨(Key.function ref, id) ::ₘ (Key.label function.entry, label) ::ₘ defined, ?_, ?_, ?_⟩
  · simpa [bound, labelBound] using within
  · have stream : results start.stream = {label} := by
      rw [same]
      rfl
    rw [results_cons, declaration, ids, stream, Multiset.map_cons, Multiset.map_cons]
    simp only [Option.toList_some, ← Multiset.singleton_add, Multiset.coe_singleton]
    abel
  · simp [keys, functionKeys]

/-- The labels of a function are that of its first block and those of the code that is added to it. -/
theorem Opens.labels {free : Multiset Word} {body : List Instruction} (opens : Opens m L.state ref function start)
    (locals : List Instruction) (known : LabelsKnown L (free + 0) body) :
    LabelsKnown L free ((start.addLocals locals).extend body).stream := by
  obtain ⟨label, bound, same⟩ := opens.blocks
  have opening : (start.addLocals locals).stream = [labelled label] := by
    rw [same]
    rfl
  have first : LabelsKnown L 0 [labelled label] :=
    ⟨{label}, 0, rfl, by simpa using ⟨_, rfl, bound⟩, le_refl _⟩
  rw [stream_extend, opening]
  simpa using first.append known

theorem Accounts.inFunction {keys : Multiset Key} (opens : Opens m L.state ref function start)
    (single : e.functions = []) (accounts : Accounts allowed L 0 keys e) :
    Accounts allowed L 0 (↑(functionKeys ref function) + keys) (e.inFunction start) := by
  obtain ⟨opened, openedBound, openedIds, openedKeys⟩ := opens.defines
  obtain ⟨defined, bound, ids, counted⟩ := accounts.defined
  obtain ⟨label, -, same⟩ := opens.blocks
  refine ⟨accounts.keyed, opened + defined, ?_, ?_, ?_⟩
  · intro entry member
    exact (Multiset.mem_add.mp member).elim (openedBound entry) (bound entry)
  · have code : results ((start.addLocals e.locals).extend e.code).instructions =
        opened.map Prod.snd + (results e.locals + results e.code) := by
      obtain ⟨declaration, params, locals⟩ := (start.addLocals e.locals).extend_others e.code
      have noLocals : start.locals = #[] := by rw [same]
      rw [results_instructions, declaration, params, locals, stream_extend, results_append, ← openedIds]
      simp only [addLocals, stream, blocks, noLocals]
      simp only [Array.empty_append]
      abel
    have before : e.results = results e.locals + results e.code + results e.globals + results e.imports := by
      rw [Effect.results, single]
      simp only [flatMap_nil, results_nil]
      abel
    have after : (e.inFunction start).results =
        results ((start.addLocals e.locals).extend e.code).instructions + results e.globals +
          results e.imports := by
      simp only [Effect.results, Effect.inFunction, flatMap_cons, flatMap_nil, append_nil, results_nil]
      abel
    have loose : (e.inFunction start).loose = e.loose := rfl
    have total := before.symm.trans ids
    rw [after, code, loose, Multiset.map_add]
    calc opened.map Prod.snd + (results e.locals + results e.code) + results e.globals + results e.imports
        = opened.map Prod.snd + (results e.locals + results e.code + results e.globals + results e.imports) := by
          abel
      _ = opened.map Prod.snd + (e.loose + 0 + defined.map Prod.snd) := by rw [total]
      _ = e.loose + 0 + (opened.map Prod.snd + defined.map Prod.snd) := by abel
  · have shared : (e.inFunction start).shared = e.shared := rfl
    rw [shared, Multiset.map_add, openedKeys, add_assoc, counted]

/-- The code of a function. -/
def FunctionLaid (m : Module) (L : Ledger) (ref : FuncId) (code : FunctionCode) : Prop :=
  ∃ function start locals body, Opens m L.state ref function start ∧ (∀ inst ∈ locals, inst.op = .variableDecl) ∧
    BodyCode m L (m.blocks.size + 1) {} function.entry body ∧ code = (start.addLocals locals).extend body

/-- Functions along with the declarations they need. -/
structure Builds (m : Module) (reached : InstId → Prop) (allowed : Key → Prop) (L : Ledger)
    (counted : Multiset Key → Prop) (described : List FunctionCode → Prop) (e : Effect) : Prop where
  functions : described e.functions
  passed : ∀ entry ∈ e.aliases, Passed m reached L entry.1 entry.2
  labels : ∀ code ∈ e.functions, LabelsKnown L e.loose code.stream
  accounts : ∀ keys, counted keys → Accounts allowed L 0 keys e

variable {reached : InstId → Prop}

theorem Builds.append {described : List FunctionCode → Prop}
    {e' : Effect} (first : Builds m reached allowed L counted described e)
    (second : Builds m reached allowed L counted' described' e') :
    Builds m reached allowed L (fun keys => ∃ a b, counted a ∧ counted' b ∧ keys = a + b)
      (fun code => ∃ a b, described a ∧ described' b ∧ code = a ++ b) (e ++ e') where
  functions := ⟨_, _, first.functions, second.functions, rfl⟩
  passed entry member := by
    rw [Effect.aliases_append, mem_append] at member
    exact member.elim (first.passed entry) (second.passed entry)
  labels code member := by
    rw [Effect.functions_append, mem_append] at member
    rw [Effect.loose_append]
    rcases member with earlier | later
    · exact (first.labels code earlier).mono (Multiset.le_add_right ..)
    · exact (second.labels code later).mono (Multiset.le_add_left ..)
  accounts := by
    rintro _ ⟨a, b, countedA, countedB, rfl⟩
    simpa using (first.accounts a countedA).append (second.accounts b countedB)

theorem Builds.mono {described : List FunctionCode → Prop}
    (built : Builds m reached allowed L counted described e) (counts : ∀ keys, counted' keys → counted keys)
    (describes : ∀ code, described code → described' code) : Builds m reached allowed L counted' described' e :=
  ⟨describes _ built.functions, built.passed, built.labels, fun keys held => built.accounts keys (counts keys held)⟩

theorem Builds.of_silent (silent : Silent allowed e) : Builds m reached allowed L (· = 0) (· = []) e where
  functions := silent.functions
  passed entry member := by simp [silent.aliases] at member
  labels code member := by simp [silent.functions] at member
  accounts keys same := same ▸ .of_silent silent

theorem Builds.of_each {α : Type} {counted : α → Multiset Key → Prop} {described : α → List FunctionCode → Prop}
    {list : List α} {units : List Unit}
    (each : Each (fun a (_ : Unit) e => Builds m reached allowed L (counted a) (described a) e) list units e) :
    Builds m reached allowed L (fun keys => ∃ parts, Forall₂ counted list parts ∧ keys = parts.sum)
      (fun codes => ∃ parts, Forall₂ described list parts ∧ codes = parts.flatten) e := by
  induction each with
  | nil =>
    refine (Builds.of_silent .empty).mono ?_ ?_
    · rintro _ ⟨parts, counted, rfl⟩
      cases counted
      rfl
    · rintro _ rfl
      exact ⟨[], .nil, rfl⟩
  | cons head tail ih =>
    refine (head.append ih).mono ?_ ?_
    · rintro _ ⟨parts, counted, rfl⟩
      cases counted with
      | cons first rest => exact ⟨_, _, first, ⟨_, rest, rfl⟩, rfl⟩
    · rintro _ ⟨first, _, described, ⟨rest, describedRest, rfl⟩, rfl⟩
      exact ⟨first :: rest, .cons described describedRest, rfl⟩

theorem closed_reached (m : Module) : Closed m m.Reached :=
  fun _ _ _ _ reached held owned found _ member => ⟨_, _, reached.live held owned, found, member⟩

/-- What a lowering refers to. -/
inductive Referred (m : Module) : Key → Prop where
  | mentioned {id : InstId} {inst : Inst} {key : Key} (reached : m.Reached id) (held : m.inst id = .ok inst)
      (mentions : Mentions m id inst key) : Referred m key
  | function {ref : FuncId} {function : Function} (declared : m.function ref = .ok function) :
      Referred m (.function ref)
  | param {ref : FuncId} {function : Function} {value : ValueId} (declared : m.function ref = .ok function)
      (member : value ∈ function.params) : Referred m (.value value)
  | entry {ref : FuncId} {function : Function} (declared : m.function ref = .ok function) :
      Referred m (.label function.entry)

theorem permitsFunction_referred (declared : m.function ref = .ok function) : PermitsFunction m (Referred m) ref where
  function := .function declared
  params _ found _ member := .param found member
  entry _ found := .entry found
  roots _ found _ member _ _ held named := .mentioned ⟨_, _, .root, found, member⟩ held
    (.result (mem_of_mem_head? named))

/-- The keys of a function and of the blocks under its first one. -/
def FunctionTotal (m : Module) (ref : FuncId) (keys : Multiset Key) : Prop :=
  ∃ function below, m.function ref = .ok function ∧ KeysWithin m (m.blocks.size + 1) function.entry below ∧
    keys = ↑(functionKeys ref function) + below

theorem ensures_functionBody (options : Options) (declared : m.function ref = .ok function) :
    Ensures (emitBody m options function.entry) fun _ L e => Lays m m.Reached (Referred m) L 0
      (fun keys => Fits m m.Reached ∧ KeysWithin m (m.blocks.size + 1) function.entry keys)
      (BodyCode m L (m.blocks.size + 1) {} function.entry) e :=
  ensures_body options (closed_reached m) (fun _ _ _ => Referred.mentioned) _ _ _
    fun _ found _ member => ⟨_, _, .entry declared, found, member⟩

theorem ensures_function (options : Options) (ref : FuncId) : EnsuresOutside (emitFunction m options ref) fun _ L e =>
      Builds m m.Reached (Referred m) L (fun keys => Fits m m.Reached ∧ FunctionTotal m ref keys)
        (fun codes => ∃ code, codes = [code] ∧ FunctionLaid m L ref code) e := by
  cases declared : m.function ref with
  | error fault =>
    unfold emitFunction
    rw [declared]
    exact .of_ensures (.fail_bind _)
  | ok function =>
    rw [emitFunction_eq]
    refine .bind_fact (fun pair => pair.1 = function)
      (.of_ensures (gathers_startFunction (permitsFunction_referred declared))) ?_ ?_
    · rintro ⟨found, code⟩ L e ⟨-, opens⟩
      cases declared.symm.trans opens.found
      rfl
    rintro ⟨function, start⟩ rfl
    refine (ensures_inFunction (ensures_functionBody options declared) fun L e laid => laid.functions).mono ?_
    rintro _ L _ ⟨e, rfl, locals, laid⟩ e' ⟨silent, opens⟩
    have built : Builds m m.Reached (Referred m) L (fun keys => Fits m m.Reached ∧ FunctionTotal m ref keys)
        (fun codes => ∃ code, codes = [code] ∧ FunctionLaid m L ref code) (e.inFunction start) :=
      { functions := ⟨_, rfl, function, start, e.locals, e.code, opens, locals, laid.code, rfl⟩
        passed := laid.passed
        labels := by
          intro code member
          cases mem_singleton.mp member
          exact opens.labels e.locals laid.labels
        accounts := by
          rintro _ ⟨fits, found, below, same, counted, rfl⟩
          cases declared.symm.trans same
          exact (laid.accounts below ⟨fits, counted⟩).inFunction opens laid.functions }
    refine ((Builds.of_silent silent).append built).mono ?_ ?_
    · exact fun keys counted => ⟨0, keys, rfl, counted, (zero_add keys).symm⟩
    · rintro _ ⟨_, codes, rfl, holds, rfl⟩
      exact holds

/-- The keys that the declarations of the whole module define. -/
def RootTotal (m : Module) (keys : Multiset Key) : Prop :=
  ∃ b insts, m.rootBlock = .ok b ∧ b.insts.mapM m.inst = .ok insts ∧
    keys = ↑(insts.flatMap fun inst => inst.results.map Key.value)

/-- What a declaration of the whole module adds. -/
def DeclaresRoot (m : Module) (id : InstId) (L : Ledger) (e : Effect) : Prop :=
  Builds m m.Reached (Referred m) L (fun keys => Fits m m.Reached ∧ ∃ inst, m.inst id = .ok inst ∧
    keys = ↑(inst.results.map Key.value)) (· = []) e

theorem ensures_root (options : Options) : Ensures (emitRoot m options) fun _ L e =>
      Builds m m.Reached (Referred m) L (fun keys => Fits m m.Reached ∧ RootTotal m keys) (· = []) e := by
  unfold emitRoot
  refine .check_next fun b found => ?_
  refine (@Ensures.forM InstId _ (DeclaresRoot m) b.insts fun id member => ?_).mono fun _ L e built =>
    (Builds.of_each built).mono ?_ ?_
  · have reached : m.Reached id := ⟨_, _, .root, found, member⟩
    refine .check_next fun inst held => ?_
    cases kind : inst.kind with
    | var declaration =>
      have permits : Permits (Referred m) inst :=
        permits_of_mentions fun key mentions => .mentioned reached held mentions
      refine (performs_variable permits options id kind).mono fun _ L e performs => ?_
      refine ⟨performs.functions, fun entry listed => ?_, by simp [performs.functions], ?_⟩
      · obtain ⟨named, source, same, resolved⟩ := performs.passed entry listed
        exact ⟨id, inst, source, reached, held, named, same, resolved⟩
      · rintro _ ⟨fits, _, same, rfl⟩
        cases held.symm.trans same
        exact performs.accounts (fits.shaped id inst reached held)
    | _ => exact .fail _
  · rintro _ ⟨fits, _, insts, same, listed, rfl⟩
    cases found.symm.trans same
    refine ⟨insts.map fun inst => Multiset.ofList (inst.results.map Key.value), ?_, ?_⟩
    · rw [forall₂_map_right_iff]
      exact (mapM_eq_ok.mp listed).imp fun id inst held => ⟨fits, inst, held, rfl⟩
    · rw [flatMap_def, ← sum_ofList, map_map]
      rfl
  · rintro _ ⟨parts, empty, rfl⟩
    refine flatten_eq_nil_iff.mpr fun part member => ?_
    obtain ⟨-, -, same⟩ := forall₂_mem_right empty member
    exact same

/-- The keys that a whole module defines. -/
def ModuleTotal (m : Module) (keys : Multiset Key) : Prop :=
  ∃ root parts, RootTotal m root ∧
    Forall₂ (fun index part => FunctionTotal m ⟨index⟩ part) (range m.functions.size) parts ∧
    keys = root + parts.sum

/-- The effect leads from nothing to the state that the lowering of a module ends in. -/
structure Lowering (m : Module) (state : LowerState) (e : Effect) : Prop where
  sound : state.Sound
  bindings : state.bindings = e.keyed + e.shared
  ids : e.taken.map (fun entry => entry.2.toNat) = range' 1 e.taken.length
  next : state.out.ids.next.toNat = 1 + e.taken.length
  globals : state.out.globals.toList = e.globals
  imports : state.out.imports.toList = e.imports
  functions : state.out.functions.toList = e.functions
  memoryModel : ∀ inst ∈ state.out.memoryModel.toList, inst.result = none
  code : e.code = [] ∧ e.locals = []
  builds : Builds m m.Reached (Referred m) ⟨state, e.loose⟩ (fun keys => Fits m m.Reached ∧ ModuleTotal m keys)
    (Forall₂ (fun index code => FunctionLaid m ⟨state, e.loose⟩ ⟨index⟩ code) (range m.functions.size)) e

/-- The state in which a lowering comes to the declarations of the root. -/
def prepared (m : Module) : LowerState :=
  { pool := m.constants
    out :=
      { capabilities := #[.shader]
        memoryModel := some ⟨.memoryModel, none, none, [.literal Addressing.logical, .literal Memory.glsl450]⟩ } }

/-- The declarations of the root and the functions, one after the other. -/
abbrev emitParts (m : Module) (options : Options) : Lower Unit := do
  emitRoot m options
  (range m.functions.size).forM fun index => emitFunction m options ⟨index⟩

/-- The lowering of a module succeeds and ends in the state. -/
abbrev Ran (m : Module) (options : Options) (state : LowerState) : Prop :=
  (emitModule m options).run { pool := m.constants } = .ok ((), state)

theorem emitModule_run (m : Module) (options : Options) :
    (emitModule m options).run { pool := m.constants } = (emitParts m options).run (prepared m) := by
  have capable : Assembly.empty.pushCapability .shader = { capabilities := #[.shader] } := by
    simp [Assembly.pushCapability, Assembly.empty]
  have modelled : ({ capabilities := #[.shader] } : Assembly).setMemoryModel .memoryModel
      [.literal Addressing.logical, .literal Memory.glsl450] = .ok (prepared m).out := by
    simp [Assembly.setMemoryModel, prepared]
    decide
  unfold emitModule require
  simp only [StateT.run_bind, StateT.run_modify, pure_bind, StateT.run_get]
  rw [capable, modelled]
  rfl

theorem Ran.parts {options : Options} {state : LowerState} (ran : Ran m options state) :
    (emitParts m options).run (prepared m) = .ok ((), state) :=
  (emitModule_run m options).symm.trans ran

theorem ensures_module (m : Module) (options : Options) : EnsuresOutside (emitParts m options) fun _ L e =>
        Builds m m.Reached (Referred m) L (fun keys => Fits m m.Reached ∧ ModuleTotal m keys)
          (Forall₂ (fun index code => FunctionLaid m L ⟨index⟩ code) (range m.functions.size)) e := by
  have each : ∀ index ∈ range m.functions.size, EnsuresOutside (emitFunction m options ⟨index⟩)
      fun _ L e => Builds m m.Reached (Referred m) L (fun keys => Fits m m.Reached ∧ FunctionTotal m ⟨index⟩ keys)
        (fun codes => ∃ code, codes = [code] ∧ FunctionLaid m L ⟨index⟩ code) e :=
    fun index _ => ensures_function options ⟨index⟩
  refine (EnsuresOutside.of_ensures (ensures_root options)).bind fun _ => ?_
  refine (EnsuresOutside.forM _ each).mono fun _ L e built e' root => ?_
  refine (root.append (Builds.of_each built)).mono ?_ ?_
  · rintro _ ⟨fits, rootKeys, parts, rootTotal, totals, rfl⟩
    exact ⟨rootKeys, _, ⟨fits, rootTotal⟩, ⟨parts, totals.imp fun _ _ total => ⟨fits, total⟩, rfl⟩, rfl⟩
  · rintro _ ⟨_, _, rfl, ⟨parts, laid, rfl⟩, rfl⟩
    have single : ∃ codes, Forall₂ (fun index code => FunctionLaid m L ⟨index⟩ code)
        (range m.functions.size) codes ∧ parts = codes.map fun code => [code] :=
      forall₂_map_of_exists (laid.imp fun index codes => fun ⟨code, same, holds⟩ => ⟨code, holds, same⟩)
    obtain ⟨codes, holds, rfl⟩ := single
    rw [nil_append, ← flatMap_def, flatMap_singleton']
    exact holds

theorem prepared_sound (m : Module) : (prepared m).Sound :=
  ⟨Multiset.nodup_zero, by simp [prepared], by simp [prepared], by simp [prepared], by simp [prepared],
    by simp [prepared]⟩

theorem lowering_of_run {options : Options} {state : LowerState}
    (ran : Ran m options state) : ∃ e, Lowering m state e := by
  obtain ⟨sound, -, e, reaches, holds⟩ :=
    ensures_module m options (prepared m) () state (prepared_sound m) rfl ran.parts
  refine ⟨e, ?_⟩
  exact
    { sound := sound
      bindings := by
        rw [reaches.bindings]
        exact congrArg (· + e.shared) (zero_add e.keyed)
      ids := reaches.ids
      next := reaches.next
      globals := reaches.globals
      imports := reaches.imports
      functions := reaches.functions
      memoryModel := by
        rw [reaches.memoryModel]
        simp [prepared]
      code := reaches.outside rfl
      builds := holds ⟨state, e.loose⟩ ⟨.refl _, fun _ held => held⟩ }

end Shader.Lower
