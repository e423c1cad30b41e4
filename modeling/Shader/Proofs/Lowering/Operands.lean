import Shader.Proofs.Lowering.Declarations

/-!
The ids of constants, values, labels and functions.
-/
namespace Shader.Pool

theorem Within.typeOf {pool larger : Pool} (within : pool.Within larger) {id : ConstId} {ty : Ty}
    (found : pool.typeOf id = .ok ty) : larger.typeOf id = .ok ty := by
  obtain ⟨constant, held, same⟩ := bind_eq_ok.mp found
  exact bind_eq_ok.mpr ⟨constant, within id constant held, same⟩

theorem Within.word? {pool larger : Pool} (within : pool.Within larger) {id : ConstId}
    {word : Option UInt32} (found : pool.word? id = .ok word) : larger.word? id = .ok word := by
  obtain ⟨constant, held, same⟩ := bind_eq_ok.mp found
  exact bind_eq_ok.mpr ⟨constant, within id constant held, same⟩

end Shader.Pool

namespace Shader.Module

theorem typeIn_within {m : Module} {pool larger : Pool} (within : pool.Within larger) {value : Value}
    {ty : Ty} (found : m.typeIn pool value = .ok ty) : m.typeIn larger value = .ok ty := by
  cases value with
  | constant id => exact within.typeOf found
  | ssa id | literal word => exact found

end Shader.Module

namespace Shader.Lower

open Binary LowerState

variable {allowed : Key → Prop} {α β : Type}
variable {elementId : ConstId → Lower Word}

theorem Ensures.get_bind {next : LowerState → Lower β} {described : β → Ledger → Effect → Prop}
    (each : ∀ s, Ensures (next s) described) : Ensures (get >>= next) described := by
  intro s b t sound ran
  exact each s s b t sound ran

theorem gathers_askPool {read : Pool → Except Fault α}
    (kept : ∀ pool larger a, pool.Within larger → read pool = .ok a → read larger = .ok a) :
    Gathers allowed (askPool read) fun a s => read s.pool = .ok a :=
  .of_empty (ensures_askPool (fun _ _ found => found) kept) fun _ _ _ held => held

theorem gathers_askPool_any (read : Pool → Except Fault α) : Gathers allowed (askPool read) fun _ _ => True :=
  .of_empty (ensures_askPool (fun _ _ _ => trivial) fun _ _ _ _ _ => trivial) fun _ _ _ held => held

/-- The null constant of the type is declared with the given id. -/
def HasNull (ty : Ty) (id : Word) (s : LowerState) : Prop :=
  (ty.normal, id) ∈ s.nulls.entries ∧ id ∈ results s.out.globals.toList

theorem gathers_nullId (m : Module) (ty : Ty) : Gathers allowed (nullId m ty) (HasNull ty) := by
  refine gathers_remember caches_nulls ty.normal (.ite (fun _ => .fail_bind _) fun _ => ?_)
  refine (gathers_typeId m _).bind fun typeWord => ?_
  exact (gathers_declared fun id => .typed rfl rfl _ _).mono fun _ _ held _ => held

theorem gathers_undefId (m : Module) (ty : Ty) :
    Gathers allowed (undefId m ty) fun id s => (ty.normal, id) ∈ s.undefs.entries := by
  refine gathers_remember caches_undefs ty.normal ?_
  refine (gathers_typeId m _).bind fun typeWord => ?_
  exact (gathers_declared fun id => .typed rfl rfl _ _).mono fun _ _ held _ => held

theorem declaring_declareScalar (typeWord id : Word) (scalar : Scalar) :
    Declaring allowed id (declareScalar typeWord id scalar) := by
  cases scalar with
  | bool value => cases value <;> exact .typed rfl rfl _ _
  | i32 value | u32 value | f32 bits | f16 bits => exact .typed rfl rfl _ _

theorem gathers_elementIds (elements : ∀ constant, Gathers allowed (elementId constant) (HasConstant constant))
    (constant : ConstId) (index : Nat) (found : List Word) (count : Nat) :
    Gathers allowed (elementIds elementId constant index found count) fun _ _ => True := by
  induction count generalizing index found with
  | zero => exact .pure fun _ => trivial
  | succ count ih =>
    refine (gathers_askPool_any _).bind fun element => (elements element).bind fun id => ?_
    exact (ih _ _).mono fun _ _ _ _ _ => trivial

theorem gathers_declareConstant (m : Module)
    (elements : ∀ constant, Gathers allowed (elementId constant) (HasConstant constant))
    (constant : ConstId) (ty : Ty) :
    Gathers allowed (declareConstant m elementId constant ty) fun id s =>
      id ∈ results s.out.globals.toList := by
  refine (gathers_typeId m ty).bind fun typeWord => ?_
  refine (gathers_fresh fun id => ?_).mono fun _ _ held _ => held
  refine .after (gathers_askPool_any _) fun contents => ?_
  cases contents with
  | scalar value => exact (declaring_declareScalar _ _ _).returning
  | composite | splat =>
    refine .after (.check _) fun count => .after (gathers_elementIds elements _ _ _ _) fun _ => ?_
    exact (Declaring.typed rfl rfl _ _).returning

theorem gathers_constantIdWithin (m : Module) (depth : Nat) (constant : ConstId) :
    Gathers allowed (constantIdWithin m depth constant) (HasConstant constant) := by
  induction depth generalizing constant with
  | zero => exact .fail _
  | succ depth ih =>
    refine gathers_remember caches_constants constant ?_
    refine (gathers_askPool_any _).bind fun ty => ?_
    have declared : ∀ isNull : Bool, Gathers allowed
        (if isNull then nullId m ty else declareConstant m (constantIdWithin m depth) constant ty)
        fun id s => id ∈ results s.out.globals.toList := fun isNull =>
      .ite (fun _ => (gathers_nullId m ty).mono fun _ _ held => held.2) fun _ =>
        gathers_declareConstant m ih constant ty
    refine .ite (fun _ => (declared false).mono fun _ _ held _ => held) fun _ => ?_
    refine (gathers_askPool_any _).bind fun isNull => ?_
    exact (declared isNull).mono fun _ _ held _ _ => held

theorem gathers_constantId (m : Module) (constant : ConstId) :
    Gathers allowed (constantId m constant) (HasConstant constant) :=
  Ensures.get_bind fun _ => gathers_constantIdWithin m _ constant

/-- The id stands for the operand. -/
def Resolves : Value → Word → LowerState → Prop
  | .constant constant, id, s => HasConstant constant id s
  | .literal word, id, _ => id = word
  | .ssa value, id, s => (Key.value value, id) ∈ s.bindings

theorem gathers_name {κ : Type} [DecidableEq κ] {register : Register κ} {name : κ → Key}
    (keeps : Registers register name) {key : κ} (fits : allowed (name key)) :
    Gathers allowed (remember register key fresh) fun id s => (name key, id) ∈ s.bindings := by
  refine (ensures_name keeps key).mono fun id L e ⟨bound, cases⟩ => ?_
  obtain rfl | rfl := cases
  · exact ⟨.empty, bound⟩
  · exact ⟨.ofKey fits, bound⟩

theorem gathers_valueId (m : Module) {value : Value} (fits : ∀ id, value = .ssa id → allowed (.value id)) :
    Gathers allowed (valueId m value) (Resolves value) := by
  cases value with
  | constant id => exact gathers_constantId m id
  | literal word => exact .pure fun _ => rfl
  | ssa id => exact gathers_name registers_values (fits id rfl)

theorem gathers_labelId {block : BlockId} (fits : allowed (.label block)) :
    Gathers allowed (labelId block) fun id s => (Key.label block, id) ∈ s.bindings :=
  gathers_name registers_labels fits

theorem gathers_mergeId {construct : InstId} (fits : allowed (.merge construct)) :
    Gathers allowed (mergeId construct) fun id s => (Key.merge construct, id) ∈ s.bindings :=
  gathers_name registers_merges fits

theorem gathers_functionId {function : FuncId} (fits : allowed (.function function)) :
    Gathers allowed (functionId function) fun id s => (Key.function function, id) ∈ s.bindings :=
  gathers_name registers_functions fits

theorem gathers_typeOf (m : Module) (value : Value) :
    Gathers allowed (typeOf m value) fun ty s => m.typeIn s.pool value = .ok ty :=
  gathers_askPool fun _ _ _ within found => Module.typeIn_within within found

theorem gathers_resultOf (inst : Inst) :
    Gathers allowed (resultOf inst) fun result _ => inst.result? = some result := by
  unfold resultOf
  cases found : inst.result? with
  | none => exact .fail _
  | some result => exact .pure fun _ => rfl

/-- The type of the value an instruction defines. -/
def resultTy (m : Module) (inst : Inst) : Except Fault Ty :=
  match inst.result? with
  | some result => do return (← m.value result).ty
  | none => .error (.noResult inst.kind.name)

theorem gathers_resultType (m : Module) (inst : Inst) :
    Gathers allowed (resultType m inst) fun ty _ => resultTy m inst = .ok ty := by
  refine (gathers_resultOf inst).bind fun result => (Gathers.check _).bind fun definition => ?_
  refine .pure fun s found named => ?_
  simp [resultTy, named, found]

theorem gathers_resultTypeId (m : Module) (inst : Inst) :
    Gathers allowed (resultTypeId m inst) fun id s => ∃ ty, resultTy m inst = .ok ty ∧ HasType ty id s :=
  (gathers_resultType m inst).bind fun ty =>
    (gathers_typeId m ty).mono fun _ _ held found => ⟨ty, found, held⟩

theorem gathers_resultId (m : Module) {inst : Inst} (fits : ∀ result ∈ inst.results, allowed (.value result)) :
    Gathers allowed (resultId m inst) fun id s =>
      ∃ result, inst.result? = some result ∧ (Key.value result, id) ∈ s.bindings := by
  unfold resultId resultOf
  cases found : inst.result? with
  | none => exact .fail_bind _
  | some result =>
    rw [pure_bind]
    refine (gathers_valueId m fun id same => ?_).mono fun _ _ held => ⟨result, rfl, held⟩
    cases same
    exact fits result (List.mem_of_mem_head? found)

end Shader.Lower
