import Shader.Proofs.Lowering.Instructions

/-!
The lowering of each instruction that neither branches nor owns blocks carries out its recipe.
-/
namespace Shader.Lower

open Binary LowerState Effect Kind Selection

variable {allowed : Key → Prop} {m : Module} {inst : Inst}
variable {value source index : Value}
variable {result : ValueId} {id typeWord : Word} {object target : Value}

section
variable (permits : Permits allowed inst)
include permits

/-- What a single operand may refer to. -/
theorem Permits.operand (member : value ∈ inst.kind.operands) (id : ValueId)
    (same : value = .ssa id) : allowed (.value id) :=
  permits.operands id (same ▸ member)

theorem performs_binary {operator : BinaryOp} {lhs rhs : Value} (kind : inst.kind = .binary operator lhs rhs) :
    Ensures (emitBinary m inst operator lhs rhs) fun _ => Performs allowed m inst := by
  refine .after (gathers_resultType m inst) fun ty => .after (gathers_typeOf m lhs) fun lhsType => ?_
  refine .after (.check _) fun opcode => .after (gathers_typeId m ty) fun typeWord => ?_
  refine .after (gathers_resultId m permits.results) fun id => ?_
  refine .after (gathers_valueId m (permits.operand (by simp [kind, operands]))) fun lhsId => ?_
  refine .after (gathers_valueId m (permits.operand (by simp [kind, operands]))) fun rhsId => ?_
  refine .emit fun L only made right left named typed chosen lhsTy target => ?_
  refine performs_computation (computes_binary chosen) made typed (one_of_shaped kind fun _ => rfl) named
    (.cons (.operand left) (.cons (.operand right) .nil)) ?_
  simp [recipe, kind, target, lhsTy, chosen]

theorem performs_unary {operator : UnaryOp} (kind : inst.kind = .unary operator value) :
    Ensures (emitUnary m inst operator value) fun _ => Performs allowed m inst := by
  refine .after (gathers_resultType m inst) fun ty => .after (.check _) fun opcode => ?_
  refine .after (gathers_typeId m ty) fun typeWord => ?_
  refine .after (gathers_resultId m permits.results) fun id => ?_
  refine .after (gathers_valueId m (permits.operand (by simp [kind, operands]))) fun operand => ?_
  refine .emit fun L only made resolved named typed chosen target => ?_
  refine performs_computation (computes_unary chosen) made typed (one_of_shaped kind fun _ => rfl) named
    (.cons (.operand resolved) .nil) ?_
  simp [recipe, kind, target, chosen]

omit permits in
/-- A value without an id can be given one that is there already. -/
theorem reaches_enter {s : LowerState} (sound : s.Sound) (absent : s.values.find? result = none) :
    (Register.values.write ((Register.values.read s).insert result id) s).Sound ∧
      s.Reaches { aliases := [(result, id)] }
      (Register.values.write ((Register.values.read s).insert result id) s) := by
  have bound := registers_values.bound s result id
  refine ⟨enter_sound registers_values sound fun other held =>
    not_mem_of_find? absent other (mem_bindings_value.mp held), ?_⟩
  exact
    { Reaches.refl s with
      grows :=
        { Grows.refl s with
          bindings := fun entry held => by rw [bound]; exact Multiset.mem_add.mpr (.inl held) }
      bindings := by rw [bound]; simp [keyed, shared] }

omit permits in
theorem ensures_share {copy : Word → Lower Unit} {described : Unit → Ledger → Effect → Prop}
    (copied : ∀ existing, Ensures (copy existing) fun u L e =>
      (Key.value result, existing) ∈ L.state.bindings → described u L e)
    (entered : ∀ L : Ledger, (Key.value result, id) ∈ L.state.bindings → described () L { aliases := [(result, id)] }) :
    Ensures (do
      match (← get).values.find? result with
      | some existing => copy existing
      | none => enter .values result id) described := by
  intro s u t sound ran
  rw [StateT.run_bind, StateT.run_get, pure_bind] at ran
  cases found : s.values.find? result with
  | some existing =>
    rw [found] at ran
    obtain ⟨kept, e, reaches, holds⟩ := copied existing s u t sound ran
    refine ⟨kept, e, reaches, fun L covers => holds L covers ?_⟩
    have bound : (Key.value result, existing) ∈ s.bindings := mem_bindings_value.mpr (mem_of_find? found)
    exact covers.grows.bindings _ (reaches.grows.bindings _ bound)
  | none =>
    rw [found] at ran
    obtain ⟨kept, reaches⟩ := @reaches_enter result id s sound found
    cases ran
    refine ⟨kept, _, reaches, fun L covers => entered L (covers.grows.bindings _ ?_)⟩
    exact (registers_values.bound s result id).symm ▸ by simp

/-- Passing a value on either copies it or lets the result share its id. -/
theorem performs_aliasTo (named : inst.result? = some result)
    (member : source ∈ inst.kind.operands) (one : inst.Shaped → inst.results.length = 1) :
    Ensures (aliasTo m result source) fun _ L e =>
      recipe m L.state.pool inst = .ok (.same source) → Performs allowed m inst L e := by
  refine .after (gathers_valueId m (permits.operand member)) fun id => ?_
  refine ensures_share (fun existing => ?_) fun L bound resolved found => ?_
  · refine .after (.check _) fun definition => .after (gathers_typeId m _) fun typeWord => ?_
    refine .emit fun L only made _ _ bound resolved found => ?_
    have copied := Instruction.make_typed rfl rfl made
    refine ⟨rfl, ?_, fun shaped => ⟨_, found, result, id, results_of_length (one shaped) named, resolved,
      .inr ⟨typeWord, existing, ?_, bound⟩⟩, by simp [ofCode], fun shaped => ?_⟩
    · simp [ofCode, copied, Opcode.isOrdinary, Opcode.isTerminator]
    · rw [ofCode, copied]
      rfl
    · rw [results_of_length (one shaped) named]
      exact .ofCode (by rw [copied]) bound
  · refine ⟨rfl, by simp, fun shaped => ⟨_, found, result, id, results_of_length (one shaped) named,
      resolved, .inl ⟨rfl, bound⟩⟩, ?_, fun shaped => ?_⟩
    · rintro entry (_ | ⟨_, ⟨⟩⟩)
      exact ⟨named, source, found, resolved⟩
    · rw [results_of_length (one shaped) named]
      exact ⟨by simp [keyed], 0, by simp, rfl, by simp [shared]⟩

theorem performs_passThrough (member : source ∈ inst.kind.operands) (one : inst.Shaped → inst.results.length = 1) :
    Ensures (passThrough m inst source) fun _ L e =>
      recipe m L.state.pool inst = .ok (.same source) → Performs allowed m inst L e := by
  unfold passThrough resultOf
  cases named : inst.result? with
  | none => exact .fail_bind _
  | some result =>
    rw [pure_bind]
    exact performs_aliasTo permits named member one

theorem performs_bitcast (kind : inst.kind = .bitcast value) :
    Ensures (emitBitcast m inst value) fun _ => Performs allowed m inst := by
  have member : value ∈ inst.kind.operands := by simp [kind, operands]
  have one := one_of_shaped kind fun _ => rfl
  refine .after (gathers_resultType m inst) fun ty => .after (gathers_typeOf m value) fun valueType => ?_
  refine .ite (fun same => ?_) fun different => ?_
  · refine (performs_passThrough permits member one).mono fun _ L e performs valueTy target => performs ?_
    simp [recipe, kind, target, valueTy, same]
  · refine .after (gathers_typeId m ty) fun typeWord => ?_
    refine .after (gathers_resultId m permits.results) fun id => ?_
    refine .after (gathers_valueId m (permits.operand member)) fun operand => ?_
    refine .emit fun L only made resolved named typed valueTy target => ?_
    refine performs_computation (by decide) made typed one named (.cons (.operand resolved) .nil) ?_
    simp [recipe, kind, target, valueTy, different]

omit permits in
theorem computes_conversion {source target : Ty} {op : Opcode} (chosen : conversion source target = .ok (.direct op) ∨
      conversion source target = .ok (.fromNull op)) : Computes op := by
  unfold conversion at chosen
  dsimp only at chosen
  repeat' split at chosen
  all_goals
    rcases chosen with chosen | chosen <;> cases chosen <;> decide

/-- The ids of constants all of whose components are the scalar. -/
def uniformIds (m : Module) (ty : Ty) (scalars : List Scalar) : Lower (List Operand) := do
  let elements ← scalars.mapM fun scalar => intern (.scalar scalar)
  let constants ← match ty with
    | .vector _ width => elements.mapM fun element => intern (.splat ty element width)
    | _ => pure elements
  operandIds m (constants.map .constant)

omit permits in
theorem gathers_uniformIds {ty : Ty} (one zero : Scalar) :
    Gathers allowed (uniformIds m ty [one, zero]) fun operands s =>
      List.Forall₂ (Carries s none) [.uniform ty one, .uniform ty zero] operands := by
  refine (Gathers.mapM [one, zero] fun scalar _ => gathers_intern _).bind fun elements => ?_
  have named (constants : List ConstId) : Gathers allowed (operandIds m (constants.map .constant))
      fun operands s => List.Forall₂ (Uniform s.pool ty) [one, zero] constants →
        List.Forall₂ (Carries s none) [.uniform ty one, .uniform ty zero] operands := by
    refine (gathers_operandIds none (by simp)).mono ?_
    rintro operands s carried (_ | ⟨firstIs, _ | ⟨secondIs, _ | _⟩⟩)
    obtain _ | ⟨⟨first⟩, _ | ⟨⟨second⟩, _ | _⟩⟩ := carried
    exact .cons (.uniform (.inl rfl) first firstIs) (.cons (.uniform (.inl rfl) second secondIs) .nil)
  -- The constants are the scalars, or vectors of them where the type is that of vectors.
  cases ty with
  | vector elem width =>
    refine (Gathers.mapM elements fun scalar _ => gathers_intern _).bind fun constants => (named constants).mono ?_
    rintro _ s carried (_ | ⟨firstIs, _ | ⟨secondIs, _ | _⟩⟩) (_ | ⟨firstIs', _ | ⟨secondIs', _ | _⟩⟩)
    exact carried (.cons ⟨_, width, firstIs, firstIs'⟩ (.cons ⟨_, width, secondIs, secondIs'⟩ .nil))
  | _ => exact named elements

theorem performs_convert (kind : inst.kind = .convert value) :
    Ensures (emitConvert m inst value) fun _ => Performs allowed m inst := by
  have one := one_of_shaped kind fun _ => rfl
  refine .after (gathers_resultType m inst) fun target => ?_
  refine .after (gathers_typeOf m value) fun source => .after (gathers_typeId m target) fun typeWord => ?_
  refine .after (gathers_resultId m permits.results) fun id => ?_
  refine .after (gathers_valueId m (permits.operand (by simp [kind, operands]))) fun operand => ?_
  refine .after (.check _) fun conversion => ?_
  cases conversion with
  | direct op =>
    refine .emit fun L only made chosen resolved named typed sourceTy targetTy => ?_
    refine performs_computation (computes_conversion (.inl chosen)) made typed one named
      (.cons (.operand resolved) .nil) ?_
    simp [recipe, kind, targetTy, sourceTy, chosen, conversionBy]
  | fromNull op =>
    refine .after (gathers_nullId m source) fun null => ?_
    refine .emit fun L only made declared chosen resolved named typed sourceTy targetTy => ?_
    refine performs_computation (computes_conversion (.inr chosen)) made typed one named
      (.cons (.operand resolved) (.cons (.null declared) .nil)) ?_
    simp [recipe, kind, targetTy, sourceTy, chosen, conversionBy]
  | choose top bottom =>
    have chooses : Ensures (do
        emit .select ([.id typeWord, .id id, .id operand] ++ (← uniformIds m target [top, bottom]))) fun _ L e =>
          conversion source target = .ok (.choose top bottom) → Resolves value operand L.state →
          (∃ result, inst.result? = some result ∧ (Key.value result, id) ∈ L.state.bindings) →
          HasType target typeWord L.state → m.typeIn L.state.pool value = .ok source →
          resultTy m inst = .ok target → Performs allowed m inst L e := by
      refine .after (gathers_uniformIds top bottom) fun constants => .emit fun L only made => ?_
      intro uniform chosen resolved named typed sourceTy targetTy
      refine performs_computation (by decide) made typed one named (.cons (.operand resolved) uniform) ?_
      simp [recipe, kind, targetTy, sourceTy, chosen, conversionBy]
    cases target <;> simpa [uniformIds, operandIds, valueId] using chooses

theorem performs_construct {args : List Value} (kind : inst.kind = .construct args) :
    Ensures (emitConstruct m inst args) fun _ => Performs allowed m inst := by
  have one := one_of_shaped kind fun _ => rfl
  have built : ∀ ty, Ensures (do
      let typeWord ← typeId m ty
      let id ← resultId m inst
      let argIds ← operandIds m args
      emit .compositeConstruct ([.id typeWord, .id id] ++ argIds)) fun _ L e =>
        recipe m L.state.pool inst = .ok (.perform none ⟨.compositeConstruct, some ty, args.map .operand⟩) →
        Performs allowed m inst L e := by
    intro ty
    refine .after (gathers_typeId m ty) fun typeWord => ?_
    refine .after (gathers_resultId m permits.results) fun id => ?_
    refine .after (gathers_operandIds none fun v member => permits.operands v ?_) fun argIds => ?_
    · rw [kind]
      exact member
    · refine .emit fun L only made carried named typed found => ?_
      exact performs_computation (by decide) made typed one named carried found
  refine .after (gathers_resultType m inst) fun ty => ?_
  rcases args with _ | ⟨arg, _ | ⟨second, rest⟩⟩
  · refine (built ty).mono fun _ L e performs target => performs ?_
    simp [recipe, kind, target]
  · refine .after (gathers_typeOf m arg) fun argType => ?_
    rw [pure_bind]
    by_cases same : argType = ty
    · rw [if_pos same]
      have member : arg ∈ inst.kind.operands := by simp [kind, operands]
      refine (performs_passThrough permits member one).mono fun _ L e performs argTy target => performs ?_
      simp [recipe, kind, target, argTy, same]
    · rw [if_neg same]
      refine (built ty).mono fun _ L e performs argTy target => performs ?_
      simp [recipe, kind, target, argTy, same]
  · refine (built ty).mono fun _ L e performs target => performs ?_
    simp [recipe, kind, target]

omit permits in
theorem carries_words {s : LowerState} {previous : Option Word} (words : List Word) :
    List.Forall₂ (Carries s previous) (words.map .word) (words.map .literal) := by
  induction words with
  | nil => exact .nil
  | cons word rest ih => exact .cons (.word word) ih

theorem performs_swizzle {indices : List UInt32} (kind : inst.kind = .swizzle object indices) :
    Ensures (emitSwizzle m inst object indices) fun _ => Performs allowed m inst := by
  refine .after (gathers_resultTypeId m inst) fun typeWord => ?_
  refine .after (gathers_resultId m permits.results) fun id => ?_
  refine .after (gathers_valueId m (permits.operand (by simp [kind, operands]))) fun source => ?_
  refine .emit fun L only made => ?_
  rintro resolved named ⟨ty, target, typed⟩
  refine performs_computation (by decide) made typed (one_of_shaped kind fun _ => rfl) named
    (.cons (.operand resolved) (.cons (.operand resolved) (carries_words indices))) ?_
  simp [recipe, kind, target]

theorem performs_load (kind : inst.kind = .load source) :
    Ensures (emitLoad m inst source) fun _ => Performs allowed m inst := by
  refine .after (gathers_resultTypeId m inst) fun typeWord => ?_
  refine .after (gathers_resultId m permits.results) fun id => ?_
  refine .after (gathers_valueId m (permits.operand (by simp [kind, operands]))) fun pointer => ?_
  refine .emit fun L only made => ?_
  rintro resolved named ⟨ty, target, typed⟩
  refine performs_computation (by decide) made typed (one_of_shaped kind fun _ => rfl) named
    (.cons (.operand resolved) .nil) ?_
  simp [recipe, kind, target]

theorem performs_store (kind : inst.kind = .store target value) :
    Ensures (emitStore m target value) fun _ => Performs allowed m inst := by
  refine .after (gathers_valueId m (permits.operand (by simp [kind, operands]))) fun pointer => ?_
  refine .after (gathers_valueId m (permits.operand (by simp [kind, operands]))) fun stored => ?_
  refine .emit fun L only made storedIs pointerIs => ?_
  have carried : List.Forall₂ (Carries L.state none) [.operand target, .operand value]
      [.id pointer, .id stored] := .cons (.operand pointerIs) (.cons (.operand storedIs) .nil)
  have emitted := emitted_plain rfl rfl made carried
  refine .of_shaped rfl (by simp [ofCode, emitted.op, Opcode.isOrdinary, Opcode.isTerminator]) rfl
    fun shaped => ?_
  have results : inst.results = [] := by simpa [Inst.Shaped, admits, kind] using shaped
  have found : recipe m L.state.pool inst = .ok (.perform none ⟨.store, none, [.operand target, .operand value]⟩) := by
    simp [recipe, kind]
  refine .of_operates found rfl ?_ (delivers_nothing results)
  rw [results]
  exact operates_nothing emitted

omit permits in
/-- Pointing at a component takes an operation of its own. -/
theorem ensures_elementPointer {vector : Value}
    (fits : ∀ value, .ssa value ∈ [vector, index] → allowed (.value value)) :
    Ensures (elementPointer m vector index) fun id L e => id ∈ L.loose ∧
      ∃ operation, elementAccess m L.state.pool vector index = .ok operation ∧
        operation.op.isOrdinary = true ∧ Operates allowed L 0 0 none operation (some id) e := by
  refine .after (gathers_typeOf m vector) fun ty => ?_
  split
  · rename_i space elem width access
    refine .after (gathers_typeId m _) fun typeWord => ?_
    refine .taking (fun id => (?_ : Ensures _ fun returned L e => id ∈ L.loose → returned = id ∧
      (HasType (.pointer space elem access) typeWord L.state → Operates allowed L {id} 0 none
        ⟨.accessChain, some (.pointer space elem access), [.operand vector, .operand index]⟩ (some id) e))) ?_
    · refine .after (gathers_valueId m fun v same => fits v (by simp [same])) fun vectorId => ?_
      refine .after (gathers_valueId m fun v same => fits v (by simp [same])) fun indexId => ?_
      refine (ensures_emit _ _).bind fun _ => .pure ?_
      rintro L _ ⟨only, made, rfl⟩ indexIs vectorIs -
      refine ⟨rfl, fun typed => ?_⟩
      rw [append_empty]
      exact operates_extra (emitted_typed rfl rfl made typed
        (.cons (.operand vectorIs) (.cons (.operand indexIs) .nil)))
    · rintro id _ L e loose ⟨rfl, operates⟩ typed vectorTy
      refine ⟨loose, _, ?_, rfl, (operates typed).taken⟩
      simp [elementAccess, vectorTy]
  · exact .fail _
  · exact .fail _

theorem performs_loadElement (kind : inst.kind = .loadElement source index) :
    Ensures (emitLoadElement m inst source index) fun _ => Performs allowed m inst := by
  have fits : ∀ value, .ssa value ∈ [source, index] → allowed (.value value) := fun value member =>
    permits.operands value (by rw [kind]; exact member)
  refine (ensures_elementPointer fits).bind fun pointer => ?_
  refine (?_ : Ensures _ fun _ L e => ∃ ty value id,
    resultTy m inst = .ok ty ∧ inst.result? = some value ∧ (Key.value value, id) ∈ L.state.bindings ∧
      Operates allowed L 0 {Key.value value} (some pointer) ⟨.load, some ty, [.previous]⟩ (some id) e).mono ?_
  · refine .after (gathers_resultTypeId m inst) fun typeWord => ?_
    refine .after (gathers_resultId m permits.results) fun id => ?_
    refine .emit fun L only made => ?_
    rintro ⟨value, named, bound⟩ ⟨ty, target, typed⟩
    have emitted := emitted_typed rfl rfl made typed (.cons (.previous rfl) .nil)
    exact ⟨ty, value, id, target, named, bound, rfl, rfl, ⟨only, rfl, emitted⟩, .ofCode emitted.result bound⟩
  · rintro _ L e ⟨ty, value, id, target, named, bound, later⟩ e' ⟨loose, first, accessed, ordinary, earlier⟩
    refine performs_second ?_ ordinary rfl (one_of_shaped kind fun _ => rfl) named bound loose earlier later
    simp [recipe, kind, accessed, target]

theorem performs_storeElement (kind : inst.kind = .storeElement target index value) :
    Ensures (emitStoreElement m target index value) fun _ => Performs allowed m inst := by
  have fits : ∀ value, .ssa value ∈ [target, index] → allowed (.value value) := fun value member =>
    permits.operands value (by rw [kind]; exact List.mem_append_left [_] member)
  refine (ensures_elementPointer fits).bind fun pointer => ?_
  refine (?_ : Ensures _ fun _ L e =>
    Operates allowed L 0 0 (some pointer) ⟨.store, none, [.previous, .operand value]⟩ none e).mono ?_
  · refine .after (gathers_valueId m (permits.operand (by simp [kind, operands]))) fun stored => ?_
    refine .emit fun L only made storedIs => ?_
    exact operates_nothing (emitted_plain rfl rfl made (.cons (.previous rfl) (.cons (.operand storedIs) .nil)))
  · rintro _ L e later e' ⟨loose, first, accessed, ordinary, earlier⟩
    obtain ⟨one, firstCode, firstEmitted⟩ := earlier.code
    obtain ⟨two, lastCode, lastEmitted⟩ := later.code
    refine .of_shaped (by simp [earlier.functions, later.functions]) ?_
      (by simp [earlier.aliases, later.aliases]) fun shaped => ?_
    · have plain : Opcode.store.isOrdinary = true := rfl
      simp [firstCode, lastCode, firstEmitted.op, lastEmitted.op, ordinary, plain]
    · have results : inst.results = [] := by simpa [Inst.Shaped, admits, kind] using shaped
      refine .of_two ?_ ordinary rfl loose earlier (by rw [results]; exact later) (delivers_nothing results)
      simp [recipe, kind, accessed]

omit permits in
theorem gathers_knownIndex? (index : Value) :
    Gathers allowed (knownIndex? index) fun word s => knownIn s.pool index = .ok word := by
  cases index with
  | constant id => exact gathers_askPool fun _ _ _ within found => within.word? found
  | literal word => exact .pure fun _ => rfl
  | ssa id => exact .pure fun _ => rfl

omit permits in
/-- Indexing below the outermost level into a vector takes two operations. -/
theorem performs_dynamic (result : Ty) (object : Value) {source : Word} {ty : Ty} {path : List Word}
    (fits : ∀ v, index = .ssa v → allowed (.value v)) (one : inst.Shaped → inst.results.length = 1) :
    Ensures (do
      let vector ← fresh
      let vectorType ← typeId m ty
      emit .compositeExtract ([.id vectorType, .id vector, .id source] ++ path.map .literal)
      let indexId ← valueId m index
      emit .vectorExtractDynamic [.id typeWord, .id id, .id vector, .id indexId]) fun _ L e =>
        HasType result typeWord L.state →
        (∃ value, inst.result? = some value ∧ (Key.value value, id) ∈ L.state.bindings) →
        Resolves object source L.state →
        recipe m L.state.pool inst =
          .ok (.perform (some ⟨.compositeExtract, some ty, .operand object :: path.map .word⟩)
            ⟨.vectorExtractDynamic, some result, [.previous, .operand index]⟩) →
        Performs allowed m inst L e := by
  refine .taking (fun vector => (?_ : Ensures _ fun _ L e => vector ∈ L.loose →
    Sequence (fun e => Resolves object source L.state → Operates allowed L {vector} 0 none
        ⟨.compositeExtract, some ty, .operand object :: path.map .word⟩ (some vector) e)
      (fun e => HasType result typeWord L.state → ∀ value, (Key.value value, id) ∈ L.state.bindings →
        Operates allowed L 0 {Key.value value} (some vector)
          ⟨.vectorExtractDynamic, some result, [.previous, .operand index]⟩ (some id) e) e)) ?_
  · refine .after (gathers_typeId m ty) fun vectorType => (ensures_emit _ _).bind fun _ => ?_
    refine (?_ : Ensures _ fun _ L e => HasType result typeWord L.state →
      ∀ value, (Key.value value, id) ∈ L.state.bindings →
      Operates allowed L 0 {Key.value value} (some vector)
        ⟨.vectorExtractDynamic, some result, [.previous, .operand index]⟩ (some id) e).mono ?_
    · refine .after (gathers_valueId m fits) fun indexId => .emit fun L only made indexIs typed value bound => ?_
      have emitted := emitted_typed rfl rfl made typed (.cons (.previous rfl) (.cons (.operand indexIs) .nil))
      exact ⟨rfl, rfl, ⟨only, rfl, emitted⟩, .ofCode emitted.result bound⟩
    · rintro _ L e later e' ⟨only, made, rfl⟩ typed loose
      refine ⟨_, e, rfl, fun resolved => ?_, later⟩
      exact operates_extra (emitted_typed rfl rfl made typed (.cons (.operand resolved) (carries_words path)))
  rintro vector _ L e loose ⟨earlier, later, rfl, first, last⟩ typed ⟨value, named, bound⟩ resolved found
  rw [← append_assoc]
  exact performs_second found rfl rfl one named bound loose (first resolved).taken (last typed value bound)

omit permits in
theorem performs_extract (result : Ty) (object : Value) {source : Word}
    (one : inst.Shaped → inst.results.length = 1) (indices : List Value)
    (fits : ∀ v, .ssa v ∈ indices → allowed (.value v)) (ty : Ty) (path : List Word) :
    Ensures (extract m typeWord id source ty path indices) fun _ L e =>
      HasType result typeWord L.state →
      (∃ value, inst.result? = some value ∧ (Key.value value, id) ∈ L.state.bindings) →
      Resolves object source L.state →
      recipe m L.state.pool inst = extraction m L.state.pool result object ty path indices →
      Performs allowed m inst L e := by
  induction indices generalizing ty path with
  | nil =>
    refine .emit fun L only made typed named resolved found => ?_
    exact performs_computation (by decide) made typed one named (.cons (.operand resolved) (carries_words path)) found
  | cons index indices ih =>
    refine .after (gathers_knownIndex? index) fun known => ?_
    cases known with
    | some word =>
      refine .after (.check _) fun elem => ?_
      refine (ih (fun v member => fits v (by simp [member])) elem (path ++ [word])).mono ?_
      intro _ L e performs element known typed named resolved found
      refine performs typed named resolved (found.trans ?_)
      simp [extraction, known, element]
    | none =>
      have fits' : ∀ v, index = .ssa v → allowed (.value v) := fun v same => fits v (by simp [same])
      cases ty with
      | vector elem width =>
        refine .ite (fun empty => ?_) fun full => ?_
        · rw [pure_bind]
          refine .after (gathers_valueId m fits') fun indexId => .emit fun L only made => ?_
          intro indexIs known typed named resolved found
          refine performs_computation (by decide) made typed one named
            (.cons (.operand resolved) (.cons (.operand indexIs) .nil)) (found.trans ?_)
          simp [extraction, known, empty]
        · refine (performs_dynamic result object fits' one).mono ?_
          intro _ L e performs known typed named resolved found
          refine performs typed named resolved (found.trans ?_)
          simp [extraction, known, full]
      | _ => exact .fail _

theorem performs_access {indices : List Value} (kind : inst.kind = .access object indices) :
    Ensures (emitAccess m inst object indices) fun _ => Performs allowed m inst := by
  have one := one_of_shaped kind fun _ => rfl
  have fits : ∀ v, .ssa v ∈ indices → allowed (.value v) := fun v member =>
    permits.operands v (by rw [kind]; exact List.mem_cons_of_mem _ member)
  refine .after (gathers_resultType m inst) fun ty => .after (gathers_typeId m ty) fun typeWord => ?_
  refine .after (gathers_resultId m permits.results) fun id => ?_
  refine .after (gathers_valueId m (permits.operand (by simp [kind, operands]))) fun source => ?_
  refine .ite (fun pointer => ?_) fun value => ?_
  · refine .after (gathers_operandIds none fits) fun indexIds => .emit fun L only made => ?_
    intro carried resolved named typed target
    refine performs_computation (by decide) made typed one named (.cons (.operand resolved) carried) ?_
    simp [recipe, kind, target, pointer]
  · refine .after (gathers_typeOf m object) fun objectType => ?_
    refine (performs_extract ty object one indices fits objectType []).mono ?_
    intro _ L e performs objectTy resolved named typed target
    refine performs typed named resolved ?_
    simp [recipe, kind, target, value, objectTy]

end

end Shader.Lower
