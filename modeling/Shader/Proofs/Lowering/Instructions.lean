import Shader.Proofs.Lowering.Recipe

/-!
Instructions that neither branch nor own blocks are lowered to code that carries out their recipe.
-/
namespace Shader.Lower

open Binary Instruction LowerState Multiset Selection

/-- Every id that is taken is defined, and what is defined besides are the ids in `extra` and those of
the given keys, unless a key shares the id of something else. -/
structure Accounts (allowed : Key → Prop) (L : Ledger) (extra : Multiset Word) (keys : Multiset Key)
    (e : Effect) : Prop where
  keyed : ∀ entry ∈ e.keyed, allowed entry.1
  defined : ∃ defined : Multiset (Key × Word), (∀ entry ∈ defined, entry ∈ L.state.bindings) ∧
    e.results = e.loose + extra + defined.map Prod.snd ∧
    defined.map Prod.fst + e.shared.map Prod.fst = keys

namespace Accounts

variable {allowed : Key → Prop} {L : Ledger} {extra extra' : Multiset Word} {keys keys' : Multiset Key} {e e' : Effect}
variable {id : Word} {inst : Instruction}

theorem append (first : Accounts allowed L extra keys e) (second : Accounts allowed L extra' keys' e') :
    Accounts allowed L (extra + extra') (keys + keys') (e ++ e') := by
  obtain ⟨defined, bound, results, counted⟩ := first.defined
  obtain ⟨defined', bound', results', counted'⟩ := second.defined
  refine ⟨fun entry member => ?_, defined + defined', fun entry member => ?_, ?_, ?_⟩
  · rw [Effect.keyed_append, mem_add] at member
    exact member.elim (first.keyed entry) (second.keyed entry)
  · exact (mem_add.mp member).elim (bound entry) (bound' entry)
  · rw [Effect.results_append, Effect.loose_append, results, results', map_add]
    abel
  · rw [Effect.shared_append, map_add, map_add, ← counted, ← counted']
    abel

theorem of_silent (silent : Silent allowed e) : Accounts allowed L 0 0 e := by
  refine ⟨silent.keyed, 0, by simp, by simp [silent.results], ?_⟩
  simp [Effect.shared, silent.aliases]

theorem silent_append (first : Silent allowed e) (second : Accounts allowed L extra keys e') :
    Accounts allowed L extra keys (e ++ e') := by
  simpa using (of_silent first).append second

theorem append_silent (first : Accounts allowed L extra keys e) (second : Silent allowed e') :
    Accounts allowed L extra keys (e ++ e') := by
  simpa using first.append (of_silent second)

/-- An id that is taken here and defined later on. -/
theorem taken (rest : Accounts allowed L (extra + {id}) keys e) :
    Accounts allowed L extra keys ({ taken := [(none, id)] } ++ e) := by
  obtain ⟨defined, bound, results, counted⟩ := rest.defined
  refine ⟨fun entry member => ?_, defined, bound, ?_, ?_⟩
  · rw [Effect.keyed_append, mem_add] at member
    refine member.elim (fun held => ?_) (rest.keyed entry)
    simp [Effect.keyed] at held
  · have nothing : ({ taken := [(none, id)] } : Effect).results = 0 := rfl
    have one : ({ taken := [(none, id)] } : Effect).loose = {id} := rfl
    rw [Effect.results_append, Effect.loose_append, results, nothing, one]
    abel
  · rw [← counted, Effect.shared_append]
    simp [Effect.shared]

theorem ofCode_nothing (result : inst.result = none) : Accounts allowed L 0 0 (.ofCode [inst]) := by
  refine ⟨fun entry member => by simp [Effect.keyed, Effect.ofCode] at member, 0, by simp, ?_, ?_⟩
  · simp [results_cons, result, Effect.loose, Effect.ofCode, Effect.results]
  · simp [Effect.shared, Effect.ofCode]

theorem ofCode_extra (result : inst.result = some id) : Accounts allowed L {id} 0 (.ofCode [inst]) := by
  refine ⟨fun entry member => by simp [Effect.keyed, Effect.ofCode] at member, 0, by simp, ?_, ?_⟩
  · simp [results_cons, result, Effect.loose, Effect.ofCode, Effect.results]
  · simp [Effect.shared, Effect.ofCode]

theorem ofCode {key : Key} (result : inst.result = some id)
    (bound : (key, id) ∈ L.state.bindings) : Accounts allowed L 0 {key} (.ofCode [inst]) := by
  refine ⟨fun entry member => by simp [Effect.keyed, Effect.ofCode] at member, {(key, id)}, ?_, ?_, ?_⟩
  · simpa using bound
  · simp [results_cons, result, Effect.loose, Effect.ofCode, Effect.results]
  · simp [Effect.shared, Effect.ofCode]

end Accounts

/-- What a lowering may refer to for the sake of an instruction that owns no blocks. -/
structure Permits (allowed : Key → Prop) (inst : Inst) : Prop where
  operands : ∀ value, .ssa value ∈ inst.kind.operands → allowed (.value value)
  results : ∀ value ∈ inst.results, allowed (.value value)
  callee : ∀ function args, inst.kind = .call function args → allowed (.function function)

/-- One instruction that performs an operation. -/
structure Operates (allowed : Key → Prop) (L : Ledger) (extra : Multiset Word) (keys : Multiset Key)
    (previous : Option Word) (operation : Operation) (result : Option Word) (e : Effect) : Prop where
  functions : e.functions = []
  aliases : e.aliases = []
  code : ∃ only, e.code = [only] ∧ operation.Emitted L.state previous result only
  accounts : Accounts allowed L extra keys e

/-- The effect of lowering an instruction that owns no blocks. -/
structure Performs (allowed : Key → Prop) (m : Module) (inst : Inst) (L : Ledger) (e : Effect) :
    Prop where
  functions : e.functions = []
  ordinary : ∀ only ∈ e.code, only.op.isOrdinary = true
  realised : inst.Shaped → ∃ found, recipe m L.state.pool inst = .ok found ∧ Realises L inst found e.code
  passed : ∀ entry ∈ e.aliases, inst.results.head? = some entry.1 ∧
    ∃ source, recipe m L.state.pool inst = .ok (.same source) ∧ Resolves source entry.2 L.state
  accounts : inst.Shaped → Accounts allowed L 0 (inst.results.map Key.value) e

section
variable {allowed : Key → Prop} {m : Module} {inst : Inst} {L : Ledger} {extra : Multiset Word}
  {keys : Multiset Key} {previous result : Option Word} {operation : Operation} {e : Effect}
variable {value : ValueId} {first last : Operation} {temporary : Word}

/-- Silent effects are absorbed by what depends on the functions, the code, the aliases and the accounts alone. -/
theorem absorbs_of_parts {β : Type} {described : β → Ledger → Effect → Prop}
    (each : ∀ {b L e e'}, e'.functions = e.functions → e'.code = e.code → e'.aliases = e.aliases →
      (∀ {extra keys}, Accounts allowed L extra keys e → Accounts allowed L extra keys e') →
      described b L e → described b L e') : Absorbs allowed described where
  before _ _ _ _ silent := each (by simp [silent.functions]) (by simp [silent.code]) (by simp [silent.aliases])
    (.silent_append silent)
  after _ _ _ _ silent := each (by simp [silent.functions]) (by simp [silent.code]) (by simp [silent.aliases])
    fun counted => counted.append_silent silent

instance : Absorbs allowed fun (_ : Unit) L e => Performs allowed m inst L e :=
  absorbs_of_parts fun functions code aliases accounts held =>
    { functions := functions.trans held.functions
      ordinary := code ▸ held.ordinary
      realised := code ▸ held.realised
      passed := aliases ▸ held.passed
      accounts := fun shaped => accounts (held.accounts shaped) }

instance {β : Type} {extra : β → Multiset Word} {operation : β → Ledger → Operation}
    {result : β → Option Word} :
    Absorbs allowed fun (b : β) L e =>
      Operates allowed L (extra b) keys previous (operation b L) (result b) e :=
  absorbs_of_parts fun functions code aliases accounts held =>
    ⟨functions.trans held.functions, aliases.trans held.aliases, code ▸ held.code, accounts held.accounts⟩

variable {op : Opcode} {ty : Ty} {typeWord id : Word} {sources : List Source} {operands : List Operand}
  {only : Instruction}

theorem emitted_typed (hasType : op.grammar.resultType = true) (hasResult : op.grammar.result = true)
    (made : make op (.id typeWord :: .id id :: operands) = .ok only)
    (typed : HasType ty typeWord L.state)
    (carried : List.Forall₂ (Carries L.state previous) sources operands) :
    Operation.Emitted L.state previous ⟨op, some ty, sources⟩ (some id) only := by
  rw [make_typed hasType hasResult made]
  exact ⟨rfl, rfl, .some typed, operands, carried, rfl⟩

theorem emitted_plain (hasType : op.grammar.resultType = false) (hasResult : op.grammar.result = false)
    (made : make op operands = .ok only)
    (carried : List.Forall₂ (Carries L.state previous) sources operands) :
    Operation.Emitted L.state previous ⟨op, none, sources⟩ none only := by
  rw [make_plain hasType hasResult made]
  exact ⟨rfl, rfl, .none, operands, carried, rfl⟩

/-- An operation whose result is a value. -/
theorem operates_value (results : inst.results = [value]) (emitted : operation.Emitted L.state previous (some id) only)
    (bound : (Key.value value, id) ∈ L.state.bindings) :
    Operates allowed L 0 (inst.results.map Key.value) previous operation (some id) (.ofCode [only]) := by
  rw [results]
  exact ⟨rfl, rfl, ⟨only, rfl, emitted⟩, .ofCode emitted.result bound⟩

/-- An operation whose result is a new id. -/
theorem operates_extra (emitted : operation.Emitted L.state previous (some id) only) :
    Operates allowed L {id} 0 previous operation (some id) (.ofCode [only]) :=
  ⟨rfl, rfl, ⟨only, rfl, emitted⟩, .ofCode_extra emitted.result⟩

theorem operates_nothing (emitted : operation.Emitted L.state previous none only) :
    Operates allowed L 0 0 previous operation none (.ofCode [only]) :=
  ⟨rfl, rfl, ⟨only, rfl, emitted⟩, .ofCode_nothing emitted.result⟩

theorem Operates.taken (rest : Operates allowed L {id} 0 previous operation result e) :
    Operates allowed L 0 0 previous operation result ({ taken := [(none, id)] } ++ e) where
  functions := rest.functions
  aliases := rest.aliases
  code := rest.code
  accounts := .taken (by simpa using rest.accounts)

/-- An instruction that is one operation. -/
theorem Performs.of_operates (found : recipe m L.state.pool inst = .ok (.perform none operation))
    (ordinary : operation.op.isOrdinary = true)
    (operates : Operates allowed L 0 (inst.results.map Key.value) none operation result e)
    (delivers : Delivers L inst result) : Performs allowed m inst L e := by
  obtain ⟨only, code, emitted⟩ := operates.code
  refine ⟨operates.functions, ?_, fun _ => ⟨_, found, result, only, code, emitted, delivers⟩, ?_,
    fun _ => operates.accounts⟩
  · simpa [code, emitted.op] using ordinary
  · simp [operates.aliases]

/-- An instruction that is two operations, the first of which computes something for the second. -/
theorem Performs.of_two {e' : Effect} (found : recipe m L.state.pool inst = .ok (.perform (some first) last))
    (firstOrdinary : first.op.isOrdinary = true) (lastOrdinary : last.op.isOrdinary = true)
    (loose : temporary ∈ L.loose)
    (earlier : Operates allowed L 0 0 none first (some temporary) e)
    (later : Operates allowed L 0 (inst.results.map Key.value) (some temporary) last result e')
    (delivers : Delivers L inst result) : Performs allowed m inst L (e ++ e') := by
  obtain ⟨one, firstCode, firstEmitted⟩ := earlier.code
  obtain ⟨two, lastCode, lastEmitted⟩ := later.code
  refine ⟨by simp [earlier.functions, later.functions], ?_, fun _ => ⟨_, found, ?_⟩, ?_, fun _ => ?_⟩
  · simp [firstCode, lastCode, firstEmitted.op, lastEmitted.op, firstOrdinary, lastOrdinary]
  · exact ⟨temporary, result, one, two, by simp [firstCode, lastCode], loose, firstEmitted, lastEmitted, delivers⟩
  · simp [earlier.aliases, later.aliases]
  · simpa using earlier.accounts.append later.accounts

theorem delivers_value (results : inst.results = [value])
    (bound : (Key.value value, id) ∈ L.state.bindings) : Delivers L inst (some id) := by
  unfold Delivers
  rw [results]
  exact ⟨id, rfl, bound⟩

theorem delivers_nothing (results : inst.results = []) : Delivers L inst none := by
  unfold Delivers
  rw [results]
  intro id same
  cases same

theorem gathers_operandIds {values : List Value} (previous : Option Word)
    (fits : ∀ value, .ssa value ∈ values → allowed (.value value)) :
    Gathers allowed (operandIds m values) fun operands s =>
      List.Forall₂ (Carries s previous) (values.map .operand) operands := by
  have each : ∀ value ∈ values, Gathers allowed (do return .id (← valueId m value)) fun operand s =>
      Carries s previous (.operand value) operand := by
    intro value member
    refine (gathers_valueId m fun id same => fits id (same ▸ member)).bind fun id => ?_
    exact .pure fun s held => .operand held
  refine (Gathers.mapM values each).mono fun operands s gathered => ?_
  rw [List.forall₂_map_left_iff]
  exact gathered

/-- Only an instruction of the right shape is described in full. -/
theorem Performs.of_shaped (functions : e.functions = [])
    (ordinary : ∀ only ∈ e.code, only.op.isOrdinary = true) (aliases : e.aliases = [])
    (whole : inst.Shaped → Performs allowed m inst L e) : Performs allowed m inst L e :=
  ⟨functions, ordinary, fun shaped => (whole shaped).realised shaped, by simp [aliases],
    fun shaped => (whole shaped).accounts shaped⟩

/-- Instructions of most kinds define one value. -/
theorem one_of_shaped {kind : Kind} (isKind : inst.kind = kind)
    (admits : ∀ count, kind.admits count = decide (count = 1))
    (shaped : inst.Shaped) : inst.results.length = 1 := by
  rw [Inst.Shaped, isKind, admits] at shaped
  exact of_decide_eq_true shaped

theorem results_of_length (one : inst.results.length = 1)
    (named : inst.result? = some value) : inst.results = [value] := by
  unfold Inst.result? at named
  cases listed : inst.results with
  | nil => simp [listed] at one
  | cons head rest =>
    rw [listed] at one named
    cases rest with
    | nil => simpa using named
    | cons next rest => simp at one

/-- The operation has a typed result and does not end a block. -/
abbrev Computes (op : Opcode) : Prop :=
  op.grammar.resultType = true ∧ op.grammar.result = true ∧ op.isOrdinary = true

theorem performs_computation (computes : Computes op) (made : make op (.id typeWord :: .id id :: operands) = .ok only)
    (typed : HasType ty typeWord L.state) (one : inst.Shaped → inst.results.length = 1)
    (named : ∃ value, inst.result? = some value ∧ (Key.value value, id) ∈ L.state.bindings)
    (carried : List.Forall₂ (Carries L.state none) sources operands)
    (found : recipe m L.state.pool inst = .ok (.perform none ⟨op, some ty, sources⟩)) :
    Performs allowed m inst L (.ofCode [only]) := by
  obtain ⟨hasType, hasResult, ordinary⟩ := computes
  obtain ⟨value, named, bound⟩ := named
  have emitted := emitted_typed hasType hasResult made typed carried
  refine .of_shaped rfl ?_ rfl fun shaped => ?_
  · simpa [Effect.ofCode, emitted.op] using ordinary
  · have results := results_of_length (one shaped) named
    exact .of_operates found ordinary (operates_value results emitted bound) (delivers_value results bound)

theorem performs_second {e' : Effect} (found : recipe m L.state.pool inst = .ok (.perform (some first) last))
    (firstOrdinary : first.op.isOrdinary = true) (lastOrdinary : last.op.isOrdinary = true)
    (one : inst.Shaped → inst.results.length = 1) (named : inst.result? = some value)
    (bound : (Key.value value, id) ∈ L.state.bindings) (loose : temporary ∈ L.loose)
    (earlier : Operates allowed L 0 0 none first (some temporary) e)
    (later : Operates allowed L 0 {Key.value value} (some temporary) last (some id) e') :
    Performs allowed m inst L (e ++ e') := by
  obtain ⟨one', firstCode, firstEmitted⟩ := earlier.code
  obtain ⟨two, lastCode, lastEmitted⟩ := later.code
  refine .of_shaped (by simp [earlier.functions, later.functions]) ?_
    (by simp [earlier.aliases, later.aliases]) fun shaped => ?_
  · simp [firstCode, lastCode, firstEmitted.op, lastEmitted.op, firstOrdinary, lastOrdinary]
  · have results := results_of_length (one shaped) named
    refine .of_two found firstOrdinary lastOrdinary loose earlier ?_ (delivers_value results bound)
    rw [results]
    exact later

theorem computes_byNumber {signed unsigned float : Opcode} (first : Computes signed)
    (second : Computes unsigned) (third : Computes float)
    (chosen : byNumber ty signed unsigned float = some op) : Computes op := by
  unfold byNumber at chosen
  repeat' split at chosen
  all_goals cases chosen
  all_goals assumption

theorem computes_binary {operator : BinaryOp} {lhs : Ty}
    (chosen : binary operator ty lhs = .ok op) : Computes op := by
  have known : binary? operator ty lhs = some op := by
    unfold binary at chosen
    split at chosen
    · cases chosen
    · cases chosen
    · split at chosen
      · cases chosen
        assumption
      · cases chosen
  cases operator with
  | multiply | divide | modulo | lessThan | greaterThan | lessThanEqual | greaterThanEqual =>
    exact computes_byNumber (by decide) (by decide) (by decide) known
  | equal | notEqual =>
    simp only [binary?, byOperand] at known
    split at known
    · cases known
      decide
    · exact computes_byNumber (by decide) (by decide) (by decide) known
  | add | subtract | xor | shiftLeft | and | or | shiftRight | logicalAnd | logicalOr =>
    simp only [binary?] at known
    repeat' split at known
    all_goals cases known
    all_goals decide

theorem computes_unary {operator : UnaryOp} (chosen : unary operator ty = .ok op) : Computes op := by
  cases operator <;> simp only [unary] at chosen <;> (repeat' split at chosen) <;> cases chosen <;> decide

end
end Shader.Lower
