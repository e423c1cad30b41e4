import Shader.Proofs.Lowering.Closure
import Shader.Proofs.Lowering.Gathers

/-!
Types, constants and operands get their ids when they are first needed, along with a declaration.
-/
namespace Shader.LowerState

/-- A change of tables that hold no ids of keys. -/
theorem reaches_of_grows {s t : LowerState} (grows : s.Grows t) (bindings : t.bindings = s.bindings)
    (out : t.out = s.out) (code : t.code = s.code) : s.Reaches ∅ t := by
  refine ⟨grows, ?_, rfl, ?_, ?_, fun _ => ⟨rfl, rfl⟩, ?_, ?_, ?_, ?_, ?_⟩ <;> simp [bindings, out, code]

end Shader.LowerState

namespace Shader.Lower

open Binary List LowerState

variable {κ : Type} {allowed : Key → Prop}
variable {step : Lower Unit} {declaration : Word → Lower Unit}

/-- A register of declared things. An id may be entered when it is `ready`, and then it is `known`. -/
structure Caches (register : Register κ) (ready : LowerState → Word → Prop)
    (known : LowerState → κ → Word → Prop) : Prop where
  enters : ∀ s key id, s.Sound → ready s id → (register.write ((register.read s).insert key id) s).Sound ∧
      s.Reaches ∅ (register.write ((register.read s).insert key id) s) ∧
      known (register.write ((register.read s).insert key id) s) key id
  found : ∀ s key id, s.Sound → (key, id) ∈ (register.read s).entries → known s key id
  kept : ∀ s t key id, s.Grows t → known s key id → known t key id

theorem gathers_remember [DecidableEq κ] {register : Register κ} {ready : LowerState → Word → Prop}
    {known : LowerState → κ → Word → Prop} (caches : Caches register ready known) (key : κ)
    {make : Lower Word} (made : Gathers allowed make fun id s => ready s id) :
    Gathers allowed (remember register key make) fun id s => known s key id := by
  intro s id t sound ran
  obtain ⟨found, same⟩ | ⟨-, middle, ranMake, same⟩ := remember_run ran
  · subst same
    have held := caches.found _ key id sound (mem_of_find? found)
    exact ⟨sound, ∅, .refl _, fun L covers => ⟨.empty, caches.kept _ _ _ _ covers.grows held⟩⟩
  · subst same
    obtain ⟨soundMiddle, e, reaches, holds⟩ := made s id middle sound ranMake
    obtain ⟨silent, ready⟩ := holds ⟨middle, e.loose⟩ ⟨.refl _, fun _ held => held⟩
    obtain ⟨soundEnd, entered, held⟩ := caches.enters middle key id soundMiddle ready
    refine ⟨soundEnd, e ++ ∅, reaches.trans entered, fun L covers => ⟨?_, ?_⟩⟩
    · rw [Effect.append_empty]
      exact silent
    · exact caches.kept _ _ _ _ covers.grows held

theorem caches_types : Caches .types (fun _ _ => True) fun s ty id => (ty, id) ∈ s.types.entries where
  enters s _ _ sound _ :=
    ⟨{ sound with }, reaches_of_grows { Grows.refl s with types := subset_cons_self .. } rfl rfl rfl,
      mem_cons_self⟩
  found _ _ _ _ held := held
  kept _ _ _ _ grows held := grows.types held

theorem caches_signatures : Caches .signatures (fun _ _ => True) fun _ _ _ => True where
  enters s _ _ sound _ := ⟨{ sound with }, reaches_of_grows { Grows.refl s with } rfl rfl rfl, trivial⟩
  found _ _ _ _ _ := trivial
  kept _ _ _ _ _ _ := trivial

theorem caches_constants : Caches .constants (fun s id => id ∈ results s.out.globals.toList) fun s constant id =>
      (constant, id) ∈ s.constants.entries ∧ id ∈ results s.out.globals.toList where
  enters s _ _ sound ready :=
    ⟨{ sound with constants := forall_mem_cons.mpr ⟨ready, sound.constants⟩ },
      reaches_of_grows { Grows.refl s with constants := subset_cons_self .. } rfl rfl rfl,
      mem_cons_self, ready⟩
  found _ _ _ sound held := ⟨held, sound.constants _ held⟩
  kept _ _ _ _ grows held := ⟨grows.constants held.1, grows.declared _ held.2⟩

theorem caches_nulls : Caches .nulls (fun s id => id ∈ results s.out.globals.toList) fun s ty id =>
      (ty, id) ∈ s.nulls.entries ∧ id ∈ results s.out.globals.toList where
  enters s _ _ sound ready :=
    ⟨{ sound with nulls := forall_mem_cons.mpr ⟨ready, sound.nulls⟩ },
      reaches_of_grows { Grows.refl s with nulls := subset_cons_self .. } rfl rfl rfl,
      mem_cons_self, ready⟩
  found _ _ _ sound held := ⟨held, sound.nulls _ held⟩
  kept _ _ _ _ grows held := ⟨grows.nulls held.1, grows.declared _ held.2⟩

theorem caches_undefs : Caches .undefs (fun s id => id ∈ results s.out.globals.toList) fun s ty id =>
      (ty, id) ∈ s.undefs.entries where
  enters s _ _ sound ready :=
    ⟨{ sound with undefs := forall_mem_cons.mpr ⟨ready, sound.undefs⟩ },
      reaches_of_grows { Grows.refl s with undefs := subset_cons_self .. } rfl rfl rfl, mem_cons_self⟩
  found _ _ _ _ held := held
  kept _ _ _ _ grows held := grows.undefs held

theorem caches_imports : Caches .imports (fun s id => id ∈ results s.out.imports.toList) fun s name id =>
      (name, id) ∈ s.imports.entries ∧ id ∈ results s.out.imports.toList where
  enters s _ _ sound ready :=
    ⟨{ sound with imports := forall_mem_cons.mpr ⟨ready, sound.imports⟩ },
      reaches_of_grows { Grows.refl s with imports := subset_cons_self .. } rfl rfl rfl,
      mem_cons_self, ready⟩
  found _ _ _ sound held := ⟨held, sound.imports _ held⟩
  kept _ _ _ _ grows held := ⟨grows.imports held.1, grows.imported _ held.2⟩

/-- The step declares the given id. -/
def Declaring (allowed : Key → Prop) (id : Word) (step : Lower Unit) : Prop :=
  Ensures step fun _ L e => Declares allowed {id} e ∧ id ∈ results L.state.out.globals.toList

namespace Declaring

variable {α : Type} {id : Word} {op : Opcode}

theorem typed (hasType : op.grammar.resultType = true) (hasResult : op.grammar.result = true) (ty : Word)
    (rest : List Operand) : Declaring allowed id (declare op (.id ty :: .id id :: rest)) := by
  refine (ensures_declare op _).mono fun _ L e ⟨inst, made, same, declared⟩ => ?_
  have result : inst.result = some id := by rw [Instruction.make_typed hasType hasResult made]
  rw [same]
  exact ⟨.ofGlobal result, declared id result⟩

theorem untyped (hasType : op.grammar.resultType = false) (hasResult : op.grammar.result = true)
    (rest : List Operand) : Declaring allowed id (declare op (.id id :: rest)) := by
  refine (ensures_declare op _).mono fun _ L e ⟨inst, made, same, declared⟩ => ?_
  have result : inst.result = some id := by rw [Instruction.make_untyped hasType hasResult made]
  rw [same]
  exact ⟨.ofGlobal result, declared id result⟩

instance : Absorbs allowed fun (_ : Unit) L e =>
    Declares allowed {id} e ∧ id ∈ results L.state.out.globals.toList where
  before _ _ _ _ silent held := ⟨silent.silent_append held.1, held.2⟩
  after _ _ _ _ silent held := ⟨held.1.append_silent silent, held.2⟩

theorem after {step : Lower α} {known : α → LowerState → Prop} {next : α → Lower Unit}
    (first : Gathers allowed step known) (second : ∀ a, Declaring allowed id (next a)) :
    Declaring allowed id (step >>= next) :=
  Ensures.after first fun a => (second a).mono fun _ _ _ held _ => held

theorem followed {last : Lower Unit} (first : Declaring allowed id step)
    (second : Gathers allowed last fun _ _ => True) :
    Declaring allowed id (step >>= fun _ => last) :=
  Ensures.followed first second

end Declaring

/-- The step declares the given id and returns it. -/
def Returning (allowed : Key → Prop) (id : Word) (step : Lower Word) : Prop :=
  Ensures step fun returned L e =>
    returned = id ∧ Declares allowed {id} e ∧ id ∈ results L.state.out.globals.toList

theorem Declaring.returning {id : Word} (declares : Declaring allowed id step) :
    Returning allowed id (step >>= fun _ => pure id) := by
  refine declares.bind fun _ => .pure fun L e held => ⟨rfl, ?_⟩
  rw [Effect.append_empty]
  exact held

theorem Returning.after {α : Type} {id : Word} {step : Lower α} {known : α → LowerState → Prop}
    {next : α → Lower Word} (first : Gathers allowed step known)
    (second : ∀ a, Returning allowed id (next a)) : Returning allowed id (step >>= next) := by
  refine Ensures.bind first fun a => (second a).mono fun returned L e ⟨same, held⟩ e' silent => ?_
  exact ⟨same, silent.1.silent_append held.1, held.2⟩

/-- Take an id and declare it. -/
theorem gathers_fresh {next : Word → Lower Word} (returns : ∀ id, Returning allowed id (next id)) :
    Gathers allowed (fresh >>= next) fun id s => id ∈ results s.out.globals.toList := by
  refine ensures_fresh.bind fun id => (returns id).mono fun returned L e ⟨same, held⟩ e' taken => ?_
  rw [taken.1, same]
  exact ⟨held.1.taken, held.2⟩

theorem gathers_declared (declares : ∀ id, Declaring allowed id (declaration id)) :
    Gathers allowed (do
      let id ← fresh
      declaration id
      return id) fun id s => id ∈ results s.out.globals.toList :=
  gathers_fresh fun id => (declares id).returning

theorem gathers_add {part : Assembly.Section} {op : Opcode} (operands : List Operand)
    (silent : isSilent part = true) (plain : op.grammar.result = false) :
    Gathers allowed (add part op operands) fun _ _ => True :=
  .of_empty (ensures_add_silent operands silent plain) fun _ _ _ same => ⟨same, trivial⟩

theorem gathers_nameId (id : Word) (name : String) : Gathers allowed (nameId id name) fun _ _ => True :=
  gathers_add _ rfl rfl

theorem gathers_decorate (id : Word) (decoration : List Word) :
    Gathers allowed (decorate id decoration) fun _ _ => True :=
  gathers_add _ rfl rfl

theorem gathers_require (capability : Capability) : Gathers allowed (require capability) fun _ _ => True :=
  .of_empty (ensures_require capability) fun _ _ _ same => ⟨same, trivial⟩

/-- The property of steps that add declarations at most. -/
abbrev Silently (allowed : Key → Prop) : Property := fun _ step => Gathers allowed step fun _ _ => True

instance : Requires (Silently allowed) where
  pure _ := .pure fun _ => trivial
  bind first second := first.bind fun a => (second a).mono fun _ _ held _ => held
  get s a t sound ran := by
    cases ran
    exact ⟨sound, ∅, .refl s, fun _ _ => ⟨.empty, trivial⟩⟩
  throw _ s a t _ ran := by cases ran
  require capability := ⟨gathers_require capability⟩

instance : HoldsOverDecorations (Silently allowed) :=
  ⟨fun id kind rest _ => ⟨gathers_decorate id (kind :: rest)⟩⟩

instance : HoldsOverModes (Silently allowed) := ⟨fun operands => ⟨gathers_add operands rfl rfl⟩⟩

theorem gathers_requireExtension (name : String) : Gathers allowed (requireExtension name) fun _ _ => True :=
  .of_empty (ensures_requireExtension name) fun _ _ _ same => ⟨same, trivial⟩

theorem gathers_intern (constant : Constant) :
    Gathers allowed (intern constant) fun id s => s.pool.get id = .ok constant.canonical :=
  .of_empty (ensures_intern constant) fun _ _ _ held => held

theorem gathers_declareType {ty : Ty} (declares : ∀ id, Declaring allowed id (declaration id)) :
    Gathers allowed (declareType ty declaration) fun id s => (ty, id) ∈ s.types.entries :=
  gathers_remember caches_types ty ((gathers_declared declares).mono fun _ _ _ => trivial)

theorem gathers_wordTypeId : Gathers allowed wordTypeId fun id s => (Ty.u32, id) ∈ s.types.entries :=
  gathers_declareType fun _ => .untyped rfl rfl _

theorem gathers_floatTypeId : Gathers allowed floatTypeId fun id s => (Ty.f32, id) ∈ s.types.entries :=
  gathers_declareType fun _ => .untyped rfl rfl _

/-- The constant is declared with the given id. -/
def HasConstant (constant : ConstId) (id : Word) (s : LowerState) : Prop :=
  (constant, id) ∈ s.constants.entries ∧ id ∈ results s.out.globals.toList

theorem gathers_wordConstantId (value : Word) : Gathers allowed (wordConstantId value) fun id s =>
      ∃ constant, s.pool.get constant = .ok (.scalar (.u32 value)) ∧ HasConstant constant id s := by
  refine (gathers_intern _).bind fun constant => ?_
  refine (gathers_remember caches_constants constant ?_).mono fun id s held stored =>
    ⟨constant, stored, held⟩
  refine (gathers_wordTypeId).bind fun ty => (gathers_declared fun id => ?_).mono fun _ _ held _ => held
  exact .typed rfl rfl _ _

theorem declaring_declareImage (use : ImageUse) (dim : TextureDim) (sampled id : Word) :
    Declaring allowed id (declareImage use dim sampled id) := by
  have format : Gathers allowed use.format fun _ _ => True := by
    cases use with
    | storage format =>
      refine (Gathers.check _).bind fun word => ?_
      split
      · exact (gathers_require _).bind fun _ => .pure fun _ _ _ => trivial
      · exact .pure fun _ _ => trivial
    | sampled | multisampled | attachment => exact .pure fun _ => trivial
  unfold declareImage
  refine .after (.check _) fun dimWord => ?_
  cases use.dimCapability? dim with
  | none => exact .after format fun _ => .untyped rfl rfl _
  | some capability =>
    exact .after (gathers_require capability) fun _ => .after format fun _ => .untyped rfl rfl _

theorem gathers_decorateMember (id : Word) (index : Nat) (member : Member) :
    Gathers allowed (decorateMember id index member) fun _ _ => True := by
  unfold decorateMember
  refine (gathers_add _ rfl rfl).bind fun _ => ?_
  extract_lets naming
  have named : ∀ step, Gathers allowed (naming step) fun _ _ => True := by
    intro step
    dsimp only [naming]
    cases member.name with
    | none => exact .pure fun _ => trivial
    | some name => exact gathers_add _ rfl rfl
  cases nestedMatrix? member.ty with
  | none => exact (named ()).mono fun _ _ _ _ => trivial
  | some matrix =>
    obtain ⟨elem, rows⟩ := matrix
    dsimp only
    cases elem.byteSize? with
    | none => exact .fail_bind _
    | some size =>
      refine (gathers_add _ rfl rfl).bind fun _ => (gathers_add _ rfl rfl).bind fun step => ?_
      exact (named step).mono fun _ _ _ _ _ _ => trivial

/-- The type is declared with the given id. -/
def HasType (ty : Ty) (id : Word) (s : LowerState) : Prop := (ty.normal, id) ∈ s.types.entries

theorem declaring_declareStruct (m : Module) {typeId : Ty → Lower Word}
    (types : ∀ ty, Gathers allowed (typeId ty) (HasType ty)) (struct : StructId) (id : Word) :
    Declaring allowed id (declareStruct m typeId struct id) := by
  unfold declareStruct
  refine .after (.check _) fun definition => ?_
  refine .after (Gathers.mapM _ fun pair _ => (?_ : Gathers allowed _ fun _ _ => True)) fun members => ?_
  · exact (types _).bind fun _ => (gathers_decorateMember _ _ _).bind fun _ => .pure fun _ _ _ => trivial
  extract_lets naming
  have named : ∀ step, Gathers allowed (naming step) fun _ _ => True := by
    intro step
    dsimp only [naming]
    cases definition.name with
    | none => exact .pure fun _ => trivial
    | some name => exact gathers_nameId _ _
  refine .followed (.untyped rfl rfl _) (.ite (fun _ => ?_) fun _ => named ())
  exact (gathers_decorate _ _).bind fun step => (named step).mono fun _ _ _ _ => trivial

theorem gathers_typeIdWith {structType : StructId → Lower Word}
    (structs : ∀ struct, Gathers allowed (structType struct) (HasType (.struct struct))) (ty : Ty) :
    Gathers allowed (typeIdWith structType ty) (HasType ty) := by
  induction ty with
  | void | bool | i32 => exact gathers_declareType fun _ => .untyped rfl rfl _
  | u32 => exact gathers_wordTypeId
  | f32 => exact gathers_floatTypeId
  | f16 =>
    refine gathers_declareType fun id => .after (gathers_require _) fun _ => ?_
    refine .after (gathers_require _) fun _ => .after (gathers_require _) fun _ => ?_
    exact .untyped rfl rfl _
  | vector elem width ih => exact gathers_declareType fun id => .after ih fun _ => .untyped rfl rfl _
  | matrix elem columns rows ih =>
    refine gathers_declareType fun id => .after (gathers_declareType fun column => ?_) fun _ => ?_
    · exact .after ih fun _ => .untyped rfl rfl _
    · exact .untyped rfl rfl _
  | array elem count stride ih =>
    refine gathers_declareType fun id => .after ih fun _ => ?_
    cases count with
    | constant count =>
      refine .after (gathers_wordConstantId count) fun _ => ?_
      exact .followed (.untyped rfl rfl _) (gathers_decorate _ _)
    | runtime => exact .followed (.untyped rfl rfl _) (gathers_decorate _ _)
  | atomic inner ih => exact ih
  | pointer space store access ih =>
    refine gathers_declareType fun id => .after ih fun _ => .after (.check _) fun _ => ?_
    exact .untyped rfl rfl _
  | struct struct => exact structs struct
  | sampler kind => exact gathers_declareType fun _ => .untyped rfl rfl _
  | sampledTexture dim sampled ih | multisampledTexture dim sampled ih | inputAttachment sampled ih
  | storageTexture dim format access sampled ih =>
    exact gathers_declareType fun id => .after ih fun _ => declaring_declareImage _ _ _ _
  | depthTexture dim | depthMultisampledTexture dim =>
    exact gathers_declareType fun id => .after gathers_floatTypeId fun _ => declaring_declareImage _ _ _ _
  | sampledImage image ih => exact gathers_declareType fun id => .after ih fun _ => .untyped rfl rfl _

theorem gathers_structTypeWithin (m : Module) (depth : Nat) (struct : StructId) :
    Gathers allowed (structTypeWithin m depth struct) (HasType (.struct struct)) := by
  induction depth generalizing struct with
  | zero => exact .fail _
  | succ depth ih =>
    exact gathers_declareType fun id => declaring_declareStruct m (gathers_typeIdWith ih) struct id

theorem gathers_typeId (m : Module) (ty : Ty) : Gathers allowed (typeId m ty) (HasType ty) :=
  gathers_typeIdWith (gathers_structTypeWithin m _) ty

end Shader.Lower
