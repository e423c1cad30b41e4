import Shader.Proofs.Lowering.Calls

/-!
Variables are declared with the id of the pointer to them, and a local variable's initializer is stored
where the declaration stands.
-/
namespace Shader.Lower

open Binary LowerState Instruction

variable {allowed : Key → Prop} {m : Module} {inst : Inst}
variable {value : ValueId} {L : Ledger} {only : Instruction} {declaration : Variable}

theorem gathers_decorateInterface (id : Word) (attributes : IoAttributes) (space : AddressSpace) :
    Gathers allowed (decorateInterface id attributes space) fun _ _ => True :=
  (has_decorateInterface : Has (Silently allowed) _).has

theorem gathers_decorateResource (at_ : InstId) (declaration : Variable) (id : Word) (store : Ty) (access : Access) :
    Gathers allowed (decorateResource at_ declaration id store access) fun _ _ => True :=
  (has_decorateResource : Has (Silently allowed) _).has

/-- The effect of declaring a variable whose pointer is `value`. -/
structure Allocated (allowed : Key → Prop) (L : Ledger) (value : ValueId) (initializer : Option Value)
    (e : Effect) : Prop where
  functions : e.functions = []
  aliases : e.aliases = []
  accounts : Accounts allowed L 0 {Key.value value} e
  code : match initializer with
    | none => e.code = []
    | some source => ∃ pointer id, (Key.value value, pointer) ∈ L.state.bindings ∧
        Resolves source id L.state ∧ e.code = [⟨.store, none, none, [.id pointer, .id id]⟩]

instance {initializer : Option Value} :
    Absorbs allowed fun (_ : Unit) L e => Allocated allowed L value initializer e :=
  absorbs_of_parts fun functions code aliases accounts held =>
    ⟨functions.trans held.functions, aliases.trans held.aliases, accounts held.accounts, code ▸ held.code⟩

theorem allocated_declared {id : Word} {e : Effect} (declares : e = { globals := [only] } ∨ e = { locals := [only] })
    (result : only.result = some id) (bound : (Key.value value, id) ∈ L.state.bindings) :
    Allocated allowed L value none e := by
  rcases declares with rfl | rfl
  all_goals
    refine ⟨rfl, rfl, ⟨by simp [Effect.keyed], {(Key.value value, id)}, by simpa using bound, ?_, ?_⟩, rfl⟩
    · simp [Effect.results, Effect.loose, results_cons, result]
    · simp [Effect.shared]

theorem ensures_declareGlobal (value : ValueId) (id typeWord storage : Word) (initializer : Option Word) :
    Ensures (declareGlobal id typeWord storage initializer) fun _ L e =>
      (Key.value value, id) ∈ L.state.bindings → Allocated allowed L value none e := by
  refine (ensures_declare _ _).mono ?_
  rintro _ L e ⟨only, made, rfl, -⟩ bound
  exact allocated_declared (.inl rfl) (by rw [make_typed rfl rfl made]) bound

theorem ensures_declareLocal (at_ : InstId) (declaration : Variable) (value : ValueId) (id typeWord : Word)
    (store : Ty) (fits : ∀ v, declaration.initializer = some (.ssa v) → allowed (.value v)) :
    Ensures (declareLocal m at_ declaration id typeWord store) fun _ L e =>
      (Key.value value, id) ∈ L.state.bindings →
        Allocated allowed L value declaration.initializer e := by
  refine .get_bind fun s => .ite (fun _ => .fail_bind _) fun _ => ?_
  cases initial : declaration.initializer with
  | none =>
    refine .after (gathers_nullId m store) fun null => (ensures_emitLocal _).mono ?_
    rintro _ L e ⟨only, made, rfl⟩ - bound
    exact allocated_declared (.inr rfl) (by rw [make_typed rfl rfl made]) bound
  | some source =>
    refine (ensures_emitLocal _).bind fun _ => ?_
    refine (?_ : Ensures _ fun _ L e => ∃ stored, Resolves source stored L.state ∧ e.functions = [] ∧ e.aliases = [] ∧
      Accounts allowed L 0 0 e ∧ e.code = [⟨.store, none, none, [.id id, .id stored]⟩]).mono ?_
    · refine Ensures.bind (gathers_valueId m fun v same => fits v (by rw [initial, same])) fun stored => ?_
      refine .emit fun L only made => ?_
      rintro e' ⟨silent, resolved⟩
      have plain := make_plain rfl rfl made
      have result : only.result = none := by rw [plain]
      refine ⟨stored, resolved, by simp [silent.functions, Effect.ofCode],
        by simp [silent.aliases, Effect.ofCode], ?_, ?_⟩
      · exact (Accounts.ofCode_nothing result).silent_append silent
      · rw [Effect.code_append, silent.code, plain]
        rfl
    · rintro _ L e ⟨stored, resolved, functions, aliases, accounts, code⟩ e' ⟨only, made, rfl⟩ bound
      have allocated : Allocated allowed L value none { locals := [only] } :=
        allocated_declared (.inr rfl) (by rw [make_typed rfl rfl made]) bound
      refine ⟨by simp [functions], by simp [aliases], ?_, id, stored, bound, resolved, code⟩
      simpa using allocated.accounts.append accounts

/-- The initializer that is stored where a variable of a given address space is declared. -/
def storedInitializer (space : AddressSpace) (declaration : Variable) : Option Value :=
  if space = .functionLocal then declaration.initializer else none

theorem Allocated.performs {e : Effect} {space : AddressSpace} {store : Ty} {access : Access}
    (allocated : Allocated allowed L value (storedInitializer space declaration) e)
    (kind : inst.kind = .var declaration) (named : inst.result? = some value)
    (typed : resultTy m inst = .ok (.pointer space store access)) : Performs allowed m inst L e := by
  have one : inst.Shaped → inst.results = [value] := fun shaped =>
    results_of_length (one_of_shaped kind (fun _ => rfl) shaped) named
  have found : recipe m L.state.pool inst = .ok (.allocate (storedInitializer space declaration)) := by
    cases space <;> simp [recipe, kind, typed, storedInitializer]
  have code := allocated.code
  refine ⟨allocated.functions, ?_, fun shaped => ⟨_, found, ?_⟩, by simp [allocated.aliases],
    fun shaped => by rw [one shaped]; exact allocated.accounts⟩
  · cases initial : storedInitializer space declaration with
    | none =>
      rw [initial] at code
      simp [show e.code = [] from code]
    | some source =>
      rw [initial] at code
      obtain ⟨pointer, id, -, -, same⟩ := code
      simp [same, Opcode.isOrdinary, Opcode.isTerminator]
  · cases initial : storedInitializer space declaration with
    | none =>
      rw [initial] at code
      exact code
    | some source =>
      rw [initial] at code
      obtain ⟨pointer, id, bound, resolved, same⟩ := code
      exact ⟨value, pointer, id, one shaped, bound, resolved, same⟩

theorem performs_variable (permits : Permits allowed inst) (options : Options) (at_ : InstId)
    (kind : inst.kind = .var declaration) :
    Ensures (declareVariable m options at_ inst declaration) fun _ => Performs allowed m inst := by
  unfold declareVariable resultId resultOf
  cases named : inst.result? with
  | none => exact .fail_bind _
  | some value =>
    simp -zeta only [pure_bind]
    have fits : ∀ v, declaration.initializer = some (.ssa v) → allowed (.value v) := fun v initial =>
      permits.operands v (by simp [kind, Kind.operands, initial])
    have result : allowed (.value value) := permits.results value (List.mem_of_mem_head? named)
    refine .after (gathers_valueId m fun v same => by cases same; exact result) fun id => ?_
    refine .after (.check _) fun definition => ?_
    cases pointer : definition.ty with
    | pointer space store access =>
      have finish : ∀ {step : Lower Unit}, Ensures step (fun _ L e => (Key.value value, id) ∈ L.state.bindings →
            Allocated allowed L value (storedInitializer space declaration) e) →
          Ensures step (fun _ L e => m.value value = .ok definition → Resolves (.ssa value) id L.state →
            Performs allowed m inst L e) := by
        intro step allocates
        refine allocates.mono fun _ L e allocated found bound => ?_
        have typed : resultTy m inst = .ok (.pointer space store access) := by
          simp [resultTy, named, found, pointer]
        exact (allocated bound).performs kind named typed
      refine .ite (fun _ => .fail_bind _) fun known => ?_
      refine .after (gathers_typeId m _) fun typeWord => ?_
      refine Ensures.mono (finish ?_) fun _ _ _ held _ => held
      -- The last step names the variable, whatever its address space.
      extract_lets last
      have naming : ∀ step, Gathers allowed (last step) fun _ _ => True := by
        intro step
        refine (Gathers.check _).bind fun definition => ?_
        cases definition.name with
        | none => exact .pure fun _ _ => trivial
        | some name => exact (gathers_nameId id name).mono fun _ _ held _ => held
      have global : ∀ storage initializer, Ensures (declareGlobal id typeWord storage initializer)
          fun _ L e => (Key.value value, id) ∈ L.state.bindings → Allocated allowed L value none e :=
        ensures_declareGlobal value id typeWord
      cases space with
      | functionLocal =>
        exact .followed (ensures_declareLocal at_ declaration value id typeWord store fits) (naming ())
      | input | output =>
        have last := fun space => (gathers_decorateInterface id declaration.attributes space).bind
          fun _ => (naming ()).mono fun _ _ held _ => held
        refine .ite (fun _ => .after (gathers_require _) fun _ => ?_) fun _ => ?_
        · refine .after (.check _) fun storage => (Ensures.followed (global storage none) (last _)).mono ?_
          exact fun _ _ _ held _ _ => held
        · refine .after (.check _) fun storage => (Ensures.followed (global storage none) (last _)).mono ?_
          exact fun _ _ _ held _ => held
      | privateLocal =>
        cases declaration.initializer with
        | none =>
          refine .after (gathers_nullId m store) fun null => ?_
          exact (Ensures.followed (global _ (some null)) (naming ())).mono fun _ _ _ held _ => held
        | some source =>
          cases source with
          | constant constant =>
            refine .after (gathers_constantId m constant) fun id => ?_
            exact (Ensures.followed (global _ (some id)) (naming ())).mono fun _ _ _ held _ => held
          | ssa | literal => exact .fail_bind _
      | pushConstant => exact .followed (global _ none) (naming ())
      | handle | storage | uniform =>
        have last := (gathers_decorateResource at_ declaration id store access).bind fun _ =>
          (naming ()).mono fun _ _ held _ => held
        refine .after (.check _) fun storage => (Ensures.followed (global storage none) last).mono ?_
        exact fun _ _ _ held _ => held
      | workgroup =>
        have null : Gathers allowed (some <$> nullId m store) fun _ _ => True :=
          (gathers_nullId m store).map fun _ _ _ => trivial
        refine .ite (fun _ => ?_) fun _ => ?_
        · refine .after null fun null => ?_
          exact (Ensures.followed (global _ null) (naming ())).mono fun _ _ _ held _ => held
        · exact .followed (global _ none) (naming ())
      | undefined => exact absurd rfl known
    | _ => exact .fail _

end Shader.Lower
