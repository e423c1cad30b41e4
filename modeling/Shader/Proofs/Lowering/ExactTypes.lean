import Shader.Proofs.Lowering.ConstantTable

/-!
Types are shared exactly as far as the target cannot tell them apart.

After a lowering, two types that were asked for have one id if and only if their normal forms are equal. Each of them
is declared once, by an instruction that describes its normal form, and every type that is declared was asked for.
-/
namespace Shader.Lower

open Binary LowerState Relation

variable {inst : Instruction}

/-- The type was asked for: to ask for it again gives its id and changes nothing. -/
def Asked (m : Module) (state : LowerState) (ty : Ty) (id : Word) : Prop := (typeId m ty).run state = .ok (id, state)

/-- The declarations of types of values that an id has. -/
def typeDeclarations (state : LowerState) (id : Word) : List Instruction :=
  state.out.globals.toList.filter fun inst => inst.op.isType && inst.result = some id

/-- The types that were asked for have one id and one declaration for each normal form, and there are no others. -/
structure ExactlyInterned (m : Module) (state : LowerState) : Prop where
  shared : ∀ {t u a b}, Asked m state t a → Asked m state u b → (a = b ↔ t.normal = u.normal)
  declared : ∀ {t id}, Asked m state t id →
    ∃ inst, typeDeclarations state id = [inst] ∧ Describes m state id t.normal inst
  laidOut : ∀ {t id}, Asked m state t id →
    state.out.annotations.toList.filter (Instruction.laysOut id) = m.layout id t.normal
  complete : ∀ inst ∈ state.out.globals.toList, inst.op.isType = true →
    ∃ t id, inst.result = some id ∧ Asked m state t id

theorem find?_of_mem {κ : Type} [DecidableEq κ] {table : Table κ} {key : κ} {id : Word}
    (once : (table.entries.map Prod.fst).Nodup) (member : (key, id) ∈ table.entries) : table.find? key = some id := by
  cases found : table.find? key with
  | none => exact absurd member (not_mem_of_find? found id)
  | some other =>
    have same := List.inj_on_of_nodup_map once (mem_of_find? found) member rfl
    exact congrArg (some ∘ Prod.snd) same

variable {m : Module} {s : LowerState} {ty : Ty} {id : Word}

theorem typeIdWith_of_find? {structType : StructId → Lower Word}
    (structs : ∀ struct, s.types.find? (.struct struct) = some id → (structType struct).run s = .ok (id, s))
    (found : s.types.find? ty.normal = some id) : (typeIdWith structType ty).run s = .ok (id, s) := by
  induction ty with
  | atomic inner ih => exact ih found
  | struct struct => exact structs struct found
  | _ => exact remember_of_find? found

/-- A type was asked for if its normal form is in the table. -/
theorem asked_iff (start : Interned m s) : Asked m s ty id ↔ (ty.normal, id) ∈ s.types.entries := by
  constructor
  · exact fun asked => (requests_typeId m ty s id s start trivial asked).2.2
  · exact fun member => typeIdWith_of_find? (fun _ found => remember_of_find? found) (find?_of_mem start.keys member)

theorem target?_of_isType (isType : inst.op.isType = true) : inst.target? = inst.result := by
  refine if_neg ?_
  rintro (same | same) <;> simp [same, Opcode.isType] at isType

/-- A type that an id declares is all that it declares. -/
theorem typeDeclarations_eq (declared : s.declarations id = [inst])
    (isType : inst.op.isType = true) : typeDeclarations s id = [inst] := by
  have split : typeDeclarations s id = (s.declarations id).filter fun inst => inst.op.isType := by
    rw [typeDeclarations, declarations, List.filter_filter]
    refine List.filter_congr fun inst _ => ?_
    cases declares : inst.op.isType with
    | false => rfl
    | true => rw [target?_of_isType declares]
  rw [split, declared]
  simp [isType]

/-- Every type that is declared is in the table. -/
theorem mem_types_of_isType {state : LowerState} (start : Interned m state)
    (leads : Leads [] (fun _ => True) (prepared m) state)
    (member : inst ∈ state.out.globals.toList) (isType : inst.op.isType = true) :
    ∃ ty id, inst.result = some id ∧ (ty, id) ∈ state.types.entries := by
  obtain ⟨id, result⟩ := Option.ne_none_iff_exists'.mp (start.named inst member)
  have declares : inst ∈ state.declarations id := by
    rw [declarations, List.mem_filter, target?_of_isType isType, result]
    exact ⟨member, by simp⟩
  have untaken : ¬(prepared m).Taken id := by
    intro taken
    rw [(leads.spared id taken List.not_mem_nil).1] at declares
    simp [declarations, prepared] at declares
  obtain ⟨ty, entered⟩ := leads.added id untaken List.not_mem_nil inst declares isType
  exact ⟨ty, id, result, entered⟩

/-- The types that a lowering asked for share an id exactly if they have the same normal form, which is normal itself.
Each of these ids is declared and laid out once, as its normal form says, and no other type is declared. -/
theorem types_interned_exactly {options : Options} {state : LowerState}
    (ran : (emitModule m options).run { pool := m.constants } = .ok ((), state)) :
    (∀ ty : Ty, ty.normal.normal = ty.normal) ∧ ExactlyInterned m state := by
  obtain ⟨start, leads⟩ := interned_of_run ran
  refine ⟨Ty.normal_normal, ⟨fun {t u a b} first second => ?_, fun asked => ?_, fun asked => ?_, ?_⟩⟩
  · rw [asked_iff start] at first second
    constructor
    · rintro rfl
      exact congrArg Prod.fst (List.inj_on_of_nodup_map start.ids first second rfl)
    · intro same
      rw [same] at first
      exact congrArg Prod.snd (List.inj_on_of_nodup_map start.keys first second rfl)
  · obtain ⟨inst, declared, describes⟩ := (start.types _ ((asked_iff start).mp asked)).declared
    exact ⟨inst, typeDeclarations_eq declared describes.isType, describes⟩
  · exact (start.types _ ((asked_iff start).mp asked)).laidOut
  · intro inst member isType
    obtain ⟨ty, id, result, entered⟩ := mem_types_of_isType start leads member isType
    refine ⟨ty, id, result, (asked_iff start).mpr ?_⟩
    rwa [(start.types _ entered).normal]

/-- A buffer that counts in an array of atomics, a private array of words, and a depth texture beside a float
texture. -/
def aliased : Module where
  structs := #[⟨some "Counters", [⟨some "hits", .array (.atomic .u32) (.constant 4) 4, 0⟩,
    ⟨some "scale", .matrix .f32 2 3, 16⟩], true⟩]
  constants := .empty
  values := #[⟨.pointer .storage (.struct ⟨0⟩) .readWrite, none, .result ⟨0⟩⟩,
    ⟨.pointer .privateLocal (.array .u32 (.constant 4) 4) .readWrite, none, .result ⟨1⟩⟩,
    ⟨.pointer .handle (.depthTexture .d2) .read, none, .result ⟨2⟩⟩,
    ⟨.pointer .handle (.sampledTexture .d2 .f32) .read, none, .result ⟨3⟩⟩]
  insts := #[⟨.var { bindingPoint := some ⟨0, 0⟩ }, [⟨0⟩], ⟨0⟩⟩, ⟨.var {}, [⟨1⟩], ⟨0⟩⟩,
    ⟨.var { bindingPoint := some ⟨0, 1⟩ }, [⟨2⟩], ⟨0⟩⟩, ⟨.var { bindingPoint := some ⟨0, 2⟩ }, [⟨3⟩], ⟨0⟩⟩]
  blocks := #[{ insts := [⟨0⟩, ⟨1⟩, ⟨2⟩, ⟨3⟩] }]

theorem aliased_types_interned : ∃ state, (emitModule aliased {}).run { pool := aliased.constants } = .ok ((), state) ∧
      state.types.entries.length = 10 ∧ state.types.find? (.array .u32 (.constant 4) 4) = some 4 ∧
      (∀ ty : Ty, ty.normal.normal = ty.normal) ∧ ExactlyInterned aliased state := by
  obtain ⟨⟨⟨⟩, state⟩, ran, length, found⟩ : ∃ result, (emitModule aliased {}).run { pool := aliased.constants } =
      .ok result ∧ result.2.types.entries.length = 10 ∧
        result.2.types.find? (.array .u32 (.constant 4) 4) = some 4 := by
    decide +kernel
  exact ⟨state, ran, length, found, types_interned_exactly ran⟩

end Shader.Lower
