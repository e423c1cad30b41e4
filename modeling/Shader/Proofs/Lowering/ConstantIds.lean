import Shader.Proofs.Lowering.NameSections
import Shader.Proofs.Lowering.ReadBack
import Shader.Proofs.Lowering.SharedDeclarations

/-!
Constants that share an id.

A constant that is no scalar and is built from zeros alone stands for the null value of its type, so constants of this
kind have one id if their types are declared as one. Any other constant has an id of its own.
-/
namespace Shader

open Binary List

/-- The constant has the type, which is not that of a scalar, and is built from zeros alone. -/
def Pool.IsNull (pool : Pool) (constant : ConstId) (ty : Ty) : Prop :=
  pool.typeOf constant = .ok ty ∧ ty.isScalar = false ∧ pool.Zero constant

theorem Pool.Nonzero.not_zero {pool : Pool} {id : ConstId} (nonzero : pool.Nonzero id) : ¬pool.Zero id := by
  induction nonzero with
  | scalar found nonzero =>
    intro zero
    rw [zero.value found] at nonzero
    cases nonzero
  | composite found member _ ih => exact fun zero => ih (zero.elements found rfl _ member)
  | splat found _ ih =>
    intro zero
    cases zero with
    | scalar same | composite same => cases found.symm.trans same
    | splat same zero =>
      cases found.symm.trans same
      exact ih zero

theorem length_filter_le_one {α β : Type} [DecidableEq β] {f : α → β} {list : List α} (once : (list.map f).Nodup)
    (b : β) : (list.filter (f · = b)).length ≤ 1 := by
  have counted := nodup_iff_count_le_one.mp once b
  rwa [count_eq_countP, countP_map, countP_eq_length_filter] at counted

/-- The instructions that declare a value of a type by the type alone. -/
def placeholders (op : Opcode) (typeWord : Word) (insts : List Instruction) : List Instruction :=
  insts.filter fun inst => inst.resultType = some typeWord && inst.op = op

namespace LowerState

variable {m : Module} {s : LowerState} {constant : ConstId} {id typeWord : Word} {ty : Ty}

/-- A constant that has the id of a null value stands for it. -/
theorem ConstantAt.isNull (start : Interned m s) (held : ConstantAt m s constant id)
    (null : (ty, id) ∈ s.nulls.entries) : ∃ ty, s.pool.IsNull constant ty := by
  obtain ⟨typeWord, -, declared⟩ := start.nulls _ null
  cases held with
  | @scalar value _ _ _ other =>
    rw [declared] at other
    rcases value with (_ | _) | value | value | bits | bits <;> cases other
  | null found whole zero =>
    exact ⟨_, Pool.typeOf_eq_ok.mpr ⟨_, found, rfl⟩, whole, zero⟩
  | composite _ _ _ _ _ _ other =>
    rw [declared] at other
    cases other

/-- A constant that stands for the null value of its type has the id of it. -/
theorem ConstantAt.null_of_isNull (held : ConstantAt m s constant id) (null : s.pool.IsNull constant ty) :
    (ty.normal, id) ∈ s.nulls.entries := by
  obtain ⟨typed, whole, zero⟩ := null
  obtain ⟨stored, found, rfl⟩ := Pool.typeOf_eq_ok.mp typed
  cases held with
  | @scalar value _ same =>
    cases found.symm.trans same
    cases value <;> cases whole
  | null same _ _ entered =>
    cases found.symm.trans same
    exact entered
  | composite _ nonzero => exact absurd zero nonzero.not_zero

/-- A type has one id, so it is told by it. -/
theorem Interned.type_eq (start : Interned m s) {other : Ty} (first : (ty, id) ∈ s.types.entries)
    (second : (other, id) ∈ s.types.entries) : ty = other :=
  congrArg Prod.fst (inj_on_of_nodup_map start.ids first second rfl)

/-- No two declarations of a kind are of the same type. -/
theorem Listed.placeholders_le_one {op : Opcode} {table : Table Ty} (start : Interned m s)
    (listed : Listed (Placeholder op s) table (s.declaredWith op)) (typeWord : Word) :
    (placeholders op typeWord s.out.globals.toList).length ≤ 1 := by
  have once : ((s.declaredWith op).map Instruction.resultType).Nodup := by
    refine listed.nodup ?_
    rintro first second _ _ ⟨word, typed, rfl⟩ ⟨other, entered, rfl⟩ same
    cases same
    exact start.type_eq typed entered
  rw [placeholders, ← filter_filter]
  exact length_filter_le_one once (some typeWord)

end LowerState

namespace Lower

open LowerState

variable {m : Module} {options : Options} {state : LowerState}

/-- A lowered module has at most one null value and one undefined value of each type. -/
theorem placeholders_le_one (ran : Ran m options state)
    {listed : List Instruction} (lists : state.out.instructions = .ok listed) (typeWord : Word) :
    (placeholders .constantNull typeWord listed).length ≤ 1 ∧ (placeholders .undef typeWord listed).length ≤ 1 := by
  obtain ⟨start, -⟩ := interned_of_run ran
  have shared := shared_of_run ran
  have same {op : Opcode} (placeholder : op.isPlaceholder = true) :
      placeholders op typeWord listed = placeholders op typeWord state.out.globals.toList := by
    rw [placeholders, placeholders, ← filter_filter, ← filter_filter,
      filter_placeholders ran lists placeholder]
  rw [same rfl, same rfl]
  exact ⟨shared.nulls.placeholders_le_one start typeWord, shared.undefs.placeholders_le_one start typeWord⟩

variable {first second : ConstId} {id other : Word}

theorem constantAt_of_asked (start : Interned m state) (asked : (constantId m first).run state = .ok (id, state)) :
    (first, id) ∈ state.constants.entries ∧ ConstantAt m state first id := by
  have entered := (settles_constantId first state id state start trivial asked).2.2
  exact ⟨entered, start.constants _ entered⟩

/-- The id of a constant that stands for the null value of its type is the one of the null value, and the only one. -/
theorem null_of_asked (ran : Ran m options state)
    (asked : (constantId m first).run state = .ok (id, state)) {ty : Ty} (null : state.pool.IsNull first ty) :
    (nullId m ty).run state = .ok (id, state) ∧ ∃ typeWord, Asked m state ty typeWord ∧
      ∀ listed, state.out.instructions = .ok listed →
        placeholders .constantNull typeWord listed = [⟨.constantNull, some typeWord, some id, []⟩] := by
  obtain ⟨start, -⟩ := interned_of_run ran
  obtain ⟨-, held⟩ := constantAt_of_asked start asked
  have entered := held.null_of_isNull null
  obtain ⟨typeWord, typed, declared⟩ := start.nulls _ entered
  refine ⟨remember_of_find? (find?_of_mem (shared_of_run ran).nulls.keys entered), typeWord,
    (asked_iff start).mpr typed,
    fun listed lists => ?_⟩
  obtain ⟨most, -⟩ := placeholders_le_one ran lists typeWord
  have among : ⟨.constantNull, some typeWord, some id, []⟩ ∈ placeholders .constantNull typeWord listed := by
    have member : ⟨.constantNull, some typeWord, some id, []⟩ ∈ state.declarations id := by simp [declared]
    have globals : ⟨.constantNull, some typeWord, some id, []⟩ ∈
        listed.filter fun inst => decide (inst.op = .constantNull) := by
      rw [filter_placeholders ran lists rfl]
      exact mem_filter.mpr ⟨mem_of_mem_filter member, by simp⟩
    exact mem_filter.mpr ⟨mem_of_mem_filter globals, by simp⟩
  generalize placeholders .constantNull typeWord listed = found at most among
  match found, most with
  | [only], _ => rw [mem_singleton.mp among]

/-- Constants that were asked for have the same id if they are the same or both stand for the null value of one type,
as far as the target can tell types apart. The id of a null value is the only one of its type. -/
theorem constants_share_ids (ran : (emitModule m options).run { pool := m.constants } = .ok ((), state))
    (askedFirst : (constantId m first).run state = .ok (id, state))
    (askedSecond : (constantId m second).run state = .ok (other, state)) :
    (∀ ty also, state.pool.IsNull first ty → state.pool.IsNull second also → (id = other ↔ ty.normal = also.normal)) ∧
      (∀ ty, state.pool.IsNull first ty → (nullId m ty).run state = .ok (id, state) ∧
        ∃ typeWord, Asked m state ty typeWord ∧ ∀ listed, state.out.instructions = .ok listed →
          placeholders .constantNull typeWord listed = [⟨.constantNull, some typeWord, some id, []⟩]) ∧
      (¬((∃ ty, state.pool.IsNull first ty) ∧ ∃ ty, state.pool.IsNull second ty) → (id = other ↔ first = second)) ∧
      ∀ listed, state.out.instructions = .ok listed → ∀ typeWord,
        (placeholders .constantNull typeWord listed).length ≤ 1 ∧ (placeholders .undef typeWord listed).length ≤ 1 := by
  obtain ⟨start, -⟩ := interned_of_run ran
  obtain ⟨enteredFirst, heldFirst⟩ := constantAt_of_asked start askedFirst
  obtain ⟨enteredSecond, heldSecond⟩ := constantAt_of_asked start askedSecond
  refine ⟨fun ty also nullFirst nullSecond => ?_, fun ty => null_of_asked ran askedFirst, fun apart => ?_,
    fun listed lists => placeholders_le_one ran lists⟩
  · have here := heldFirst.null_of_isNull nullFirst
    have there := heldSecond.null_of_isNull nullSecond
    constructor
    · rintro rfl
      obtain ⟨word, typed, declared⟩ := start.nulls _ here
      obtain ⟨also, entered, again⟩ := start.nulls _ there
      cases declared.symm.trans again
      exact start.type_eq typed entered
    · intro same
      rw [same] at here
      have once := inj_on_of_nodup_map (shared_of_run ran).nulls.keys here there rfl
      exact congrArg Prod.snd once
  · constructor
    · rintro rfl
      refine (start.apart _ enteredFirst _ enteredSecond rfl).resolve_right ?_
      rintro ⟨ty, null⟩
      exact apart ⟨heldFirst.isNull start null, heldSecond.isNull start null⟩
    · rintro rfl
      cases askedFirst.symm.trans askedSecond
      rfl

/-- Two arrays of zeros, one of which is of atomics, and an array that is not all zeros. -/
def zeroArrays : Module where
  constants := ⟨#[.scalar (.u32 0), .splat (.array .u32 (.constant 2) 4) ⟨0⟩ 2,
    .splat (.array (.atomic .u32) (.constant 2) 4) ⟨0⟩ 2, .scalar (.u32 1),
    .composite (.array .u32 (.constant 2) 4) [⟨0⟩, ⟨3⟩]]⟩
  values := #[⟨.pointer .privateLocal (.array .u32 (.constant 2) 4) .readWrite, none, .result ⟨0⟩⟩,
    ⟨.pointer .privateLocal (.array (.atomic .u32) (.constant 2) 4) .readWrite, none, .result ⟨1⟩⟩,
    ⟨.pointer .privateLocal (.array .u32 (.constant 2) 4) .readWrite, none, .result ⟨2⟩⟩]
  insts := #[⟨.var { initializer := some (.constant ⟨1⟩) }, [⟨0⟩], ⟨0⟩⟩,
    ⟨.var { initializer := some (.constant ⟨2⟩) }, [⟨1⟩], ⟨0⟩⟩,
    ⟨.var { initializer := some (.constant ⟨4⟩) }, [⟨2⟩], ⟨0⟩⟩]
  blocks := #[{ insts := [⟨0⟩, ⟨1⟩, ⟨2⟩] }]

theorem zeroArrays_share_ids : ∃ state id other apart,
    (emitModule zeroArrays {}).run { pool := zeroArrays.constants } = .ok ((), state) ∧
      (constantId zeroArrays ⟨1⟩).run state = .ok (id, state) ∧
      (constantId zeroArrays ⟨2⟩).run state = .ok (other, state) ∧
      (constantId zeroArrays ⟨4⟩).run state = .ok (apart, state) ∧
      id = other ∧ (nullId zeroArrays (.array .u32 (.constant 2) 4)).run state = .ok (id, state) ∧ id ≠ apart := by
  obtain ⟨⟨⟨⟩, state⟩, ran, pool, whole, atomic, mixed⟩ : ∃ result,
      (emitModule zeroArrays {}).run { pool := zeroArrays.constants } = .ok result ∧
        result.2.pool = ⟨zeroArrays.constants.items.push (.scalar (.u32 2))⟩ ∧ result.2.constants.find? ⟨1⟩ = some 6 ∧
        result.2.constants.find? ⟨2⟩ = some 6 ∧ result.2.constants.find? ⟨4⟩ = some 9 := by
    decide +kernel
  have null : state.pool.IsNull ⟨1⟩ (.array .u32 (.constant 2) 4) := by
    rw [pool]
    exact ⟨rfl, rfl, .splat rfl (.scalar rfl rfl)⟩
  have alsoNull : state.pool.IsNull ⟨2⟩ (.array (.atomic .u32) (.constant 2) 4) := by
    rw [pool]
    exact ⟨rfl, rfl, .splat rfl (.scalar rfl rfl)⟩
  have nonzero : state.pool.Nonzero ⟨4⟩ := by
    rw [pool]
    exact .composite rfl (mem_cons_of_mem _ mem_cons_self) (.scalar rfl rfl)
  have one := constantId_of_find? (m := zeroArrays) whole
  have two := constantId_of_find? (m := zeroArrays) atomic
  have four := constantId_of_find? (m := zeroArrays) mixed
  refine ⟨state, 6, 6, 9, ran, one, two, four, ?_, ?_, ?_⟩
  · exact ((constants_share_ids ran one two).1 _ _ null alsoNull).mpr rfl
  · exact ((constants_share_ids ran one two).2.1 _ null).1
  · have apart := (constants_share_ids ran one four).2.2.1 fun both => nonzero.not_zero both.2.choose_spec.2.2
    exact fun same => absurd (apart.mp same) (by decide)

end Lower
end Shader
