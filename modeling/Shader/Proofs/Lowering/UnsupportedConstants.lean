import Shader.Proofs.Lowering.ConstantIds

/-!
Constants of types that have no components.

A constant that is written with elements is of a vector, a matrix, an array of known length or a struct. One of another
type is refused, unless all its scalars are zero: then it stands for the null value of its type, which every type has
but the pointers. A constant without elements is one of these.
-/
namespace Shader

open Binary Option

/-- The values of the type in normal form are made of components, and it is known of how many. -/
def Ty.isComposite : Ty → Bool
  | .vector .. | .matrix .. | .array _ (.constant _) _ | .struct _ => true
  | _ => false

/-- The constant is written with elements, although values of its type have no components. -/
structure Pool.Unsupported (pool : Pool) (constant : ConstId) (ty : Ty) : Prop where
  typed : pool.typeOf constant = .ok ty
  whole : ∀ value, pool.get constant ≠ .ok (.scalar value)
  plain : ty.normal.isComposite = false

namespace Lower

open LowerState

variable {m : Module} {s t : LowerState} {constant : ConstId} {id : Word} {ty : Ty}

/-- What is wrong with a constant of the type, if not all of it is zero. -/
def unsupported (constant : ConstId) : Ty → Fault
  | .array _ .runtime _ => .runtimeArrayConstant constant
  | ty => .constantType ty

theorem componentCount_unsupported (plain : ty.normal.isComposite = false) :
    componentCount m constant ty = .error (unsupported constant ty) := by
  cases ty with
  | array elem count stride => cases count <;> first | rfl | cases plain
  | vector | matrix | struct => cases plain
  | _ => rfl

/-- The constant is written with zeros alone, and its type has a null value. -/
def StandsNull (pool : Pool) (constant : ConstId) (ty : Ty) : Prop :=
  pool.IsNull constant ty ∧ ty.normal.pointee? = none

theorem standsNull_of_entered (start : Interned m s) (held : s.pool.Unsupported constant ty)
    (entered : (constant, id) ∈ s.constants.entries) : StandsNull s.pool constant ty ∧ NullAt s ty.normal id := by
  obtain ⟨typed, whole, plain⟩ := held
  obtain ⟨stored, found, rfl⟩ := Pool.typeOf_eq_ok.mp typed
  cases start.constants _ entered with
  | scalar same => exact absurd same (whole _)
  | null same notScalar zero null =>
    cases found.symm.trans same
    exact ⟨⟨⟨typed, notScalar, zero⟩, start.bare _ null⟩, start.nulls _ null⟩
  | composite same _ _ counted =>
    cases found.symm.trans same
    cases (componentCount_unsupported plain).symm.trans counted

/-- Only a null value is ever given for the constant. -/
theorem standsNull_of_valueId (start : Interned m s) (held : s.pool.Unsupported constant ty)
    (ran : (valueId m (.constant constant)).run s = .ok (id, t)) :
    StandsNull t.pool constant ty ∧ NullAt t ty.normal id := by
  obtain ⟨kept, leads, entered⟩ := settles_constantId constant s id t start trivial ran
  obtain ⟨stored, found, rfl⟩ := Pool.typeOf_eq_ok.mp held.typed
  have still := leads.pool _ _ found
  refine standsNull_of_entered kept ⟨Pool.typeOf_eq_ok.mpr ⟨_, still, rfl⟩, fun value same => ?_, held.plain⟩ entered
  cases still.symm.trans same
  exact held.whole value found

/-- The constant has no components to list. -/
theorem declareConstant_unsupported {elementId : ConstId → Lower Word} {typeWord next : Word} {u : LowerState}
    (start : Interned m s) (held : s.pool.Unsupported constant ty) (typed : (typeId m ty).run s = .ok (typeWord, t))
    (room : fresh.run t = .ok (next, u)) :
    (declareConstant m elementId constant ty).run s = .error (.fault (unsupported constant ty)) := by
  obtain ⟨-, leads, -⟩ := requests_typeId m ty s typeWord t start trivial typed
  obtain ⟨stored, found, -⟩ := Pool.typeOf_eq_ok.mp held.typed
  have still : u.pool.get constant = .ok stored := by
    obtain ⟨-, rfl, -⟩ := fresh_run room
    exact leads.pool _ _ found
  rw [declareConstant, run_bind_ok typed, run_bind_ok room, run_bind_ok (askPool_of_ok still)]
  cases stored with
  | scalar value => exact absurd found (held.whole value)
  | composite | splat =>
    rw [componentCount_unsupported held.plain]
    rfl

theorem nullId_pointer (start : Interned m s) (pointer : ty.normal.pointee? ≠ none) :
    (nullId m ty).run s = .error (.fault (.constantType ty.normal)) := by
  refine remember_of_error (eq_none_iff_forall_ne_some.mpr fun word found => ?_) ?_
  · exact pointer (start.bare _ (mem_of_find? found))
  · rw [if_pos (isSome_iff_ne_none.mpr pointer)]
    rfl

/-- The first reference to a constant that is not a null value ends the lowering with a fault. -/
theorem valueId_unsupported {typeWord next : Word} {u : LowerState} {zero : Bool} (start : Interned m s)
    (held : s.pool.Unsupported constant ty) (absent : s.constants.find? constant = none)
    (zeros : s.pool.allZero constant = .ok zero) (typed : (typeId m ty).run s = .ok (typeWord, t))
    (room : fresh.run t = .ok (next, u)) (other : ty.isScalar = true ∨ zero = false ∨ ty.normal.pointee? ≠ none) :
    ∃ cause, (valueId m (.constant constant)).run s = .error (.fault cause) := by
  have refused : (declareConstant m (constantIdWithin m s.pool.size) constant ty).run s
      = .error (.fault (unsupported constant ty)) := declareConstant_unsupported start held typed room
  refine ⟨if ty.isScalar = false ∧ zero = true then .constantType ty.normal else unsupported constant ty, ?_⟩
  rw [valueId, constantId, run_bind_ok (StateT.run_get s)]
  refine remember_of_error absent ?_
  rw [run_bind_ok (askPool_of_ok held.typed)]
  cases scalar : ty.isScalar with
  | true => exact refused
  | false =>
    refine (run_bind_ok (askPool_of_ok zeros)).trans ?_
    cases zero with
    | false => exact refused
    | true => exact nullId_pointer start (by simpa [scalar] using other)

/-- The first reference to a constant of zeros is one to the null value of its type. -/
theorem valueId_null (held : s.pool.Unsupported constant ty) (absent : s.constants.find? constant = none)
    (zeros : s.pool.allZero constant = .ok true) (whole : ty.isScalar = false)
    (ran : (nullId m ty).run s = .ok (id, t)) :
    (valueId m (.constant constant)).run s = .ok (id, { t with constants := t.constants.insert constant id }) := by
  rw [valueId, constantId, run_bind_ok (StateT.run_get s)]
  refine remember_of_none absent ?_
  rw [run_bind_ok (askPool_of_ok held.typed), whole]
  refine (run_bind_ok (askPool_of_ok zeros)).trans ?_
  exact ran

/-- In a lowering that succeeds, a constant that is written with elements and is of a type without components is never
declared with them: it is one of zeros and stands for the null value of its type. The first reference to any other one,
and to any pointer, ends the lowering with a fault, whatever the elements are. -/
theorem unsupported_constants_null (m : Module) (options : Options) :
    (∀ state, (emitModule m options).run { pool := m.constants } = .ok ((), state) → Interned m state ∧
      ∀ entry ∈ state.constants.entries, ∀ ty, state.pool.Unsupported entry.1 ty →
        StandsNull state.pool entry.1 ty ∧ NullAt state ty.normal entry.2) ∧
    ∀ s constant ty, Interned m s → s.pool.Unsupported constant ty →
      (∀ id t, (valueId m (.constant constant)).run s = .ok (id, t) →
        StandsNull t.pool constant ty ∧ NullAt t ty.normal id) ∧
      ∀ zero typeWord next t u, s.constants.find? constant = none → s.pool.allZero constant = .ok zero →
        (typeId m ty).run s = .ok (typeWord, t) → fresh.run t = .ok (next, u) →
        if zero = true ∧ ty.isScalar = false ∧ ty.normal.pointee? = none then
          ∀ id v, (nullId m ty).run s = .ok (id, v) → ∃ w, (valueId m (.constant constant)).run s = .ok (id, w)
        else ∃ cause, (valueId m (.constant constant)).run s = .error (.fault cause) := by
  refine ⟨fun state ran => ?_, fun s constant ty start held => ⟨fun id t => standsNull_of_valueId start held, ?_⟩⟩
  · obtain ⟨start, -⟩ := interned_of_run ran
    exact ⟨start, fun entry entered ty held => standsNull_of_entered start held entered⟩
  · intro zero typeWord next t u absent zeros typed room
    split
    · rename_i null
      obtain ⟨rfl, whole, -⟩ := null
      exact fun id v ran => ⟨_, valueId_null held absent zeros whole ran⟩
    · refine valueId_unsupported start held absent zeros typed room ?_
      cases scalar : ty.isScalar <;> cases zero <;> simp_all

/-- A variable that begins as a runtime array of zeros, and a pointer without elements. -/
def zeroBuffer : Module where
  constants := ⟨#[.scalar (.u32 0), .splat (.array .u32 .runtime 4) ⟨0⟩ 2,
    .composite (.pointer .privateLocal .u32 .readWrite) []]⟩
  values := #[⟨.pointer .privateLocal (.array .u32 .runtime 4) .readWrite, none, .result ⟨0⟩⟩]
  insts := #[⟨.var { initializer := some (.constant ⟨1⟩) }, [⟨0⟩], ⟨0⟩⟩]
  blocks := #[{ insts := [⟨0⟩] }]

/-- The array is the null value of its type, and the pointer is refused. -/
theorem zeroBuffer_null : ∃ state cause,
    (emitModule zeroBuffer {}).run { pool := zeroBuffer.constants } = .ok ((), state) ∧
    NullAt state (.array .u32 .runtime 4) 5 ∧
    (valueId zeroBuffer (.constant ⟨2⟩)).run state = .error (.fault cause) := by
  obtain ⟨⟨⟨⟩, state⟩, ran, pool, constants, ⟨typeWord, t⟩, typed, ⟨next, u⟩, room⟩ : ∃ result,
      (emitModule zeroBuffer {}).run { pool := zeroBuffer.constants } = .ok result ∧
        result.2.pool = zeroBuffer.constants ∧ result.2.constants = ⟨[(⟨1⟩, 5)]⟩ ∧
        ∃ typed, (typeId zeroBuffer (.pointer .privateLocal .u32 .readWrite)).run result.2 = .ok typed ∧
          ∃ next, fresh.run typed.2 = .ok next := by
    decide +kernel
  obtain ⟨whole, each⟩ := unsupported_constants_null zeroBuffer {}
  obtain ⟨start, nulls⟩ := whole state ran
  rw [pool, constants] at nulls
  have array : zeroBuffer.constants.Unsupported ⟨1⟩ (.array .u32 .runtime 4) := ⟨rfl, by rintro _ ⟨⟩, rfl⟩
  have pointer : zeroBuffer.constants.Unsupported ⟨2⟩ (.pointer .privateLocal .u32 .readWrite) :=
    ⟨rfl, by rintro _ ⟨⟩, rfl⟩
  obtain ⟨cause, refused⟩ := (each state _ _ start (pool ▸ pointer)).2 true typeWord next t u (by rw [constants]; rfl)
    (by rw [pool]; rfl) typed room
  exact ⟨state, cause, ran, (nulls (⟨1⟩, 5) List.mem_cons_self _ array).2, refused⟩

/-- A runtime array has no components to list, and yet the one of zeros is declared. -/
theorem zeroBuffer_declared : ((emitModule zeroBuffer {}).run { pool := zeroBuffer.constants }).toOption.map
    (fun result => (result.2.constants.find? ⟨1⟩, result.2.pool.get ⟨1⟩, result.2.out.globals.toList.filter fun inst =>
      inst.result = some 5)) = some (some 5, .ok (.splat (.array .u32 .runtime 4) ⟨0⟩ 2),
        [⟨.constantNull, some 3, some 5, []⟩]) := by
  decide +kernel

end Lower
end Shader
