import Shader.Proofs.Codec.Constants

/-!
A module is read as it was written.

It has to have a pool of canonical constants without repetitions, and positions that are 32-bit numbers. Every module
that is read is such a module.
-/
namespace Shader

open Json

variable {json : Json} {m : Module}

instance : DistinctlySpelled BinaryOp := ⟨by intro a; cases a <;> decide, by decide⟩
instance : DistinctlySpelled UnaryOp := ⟨by intro a; cases a <;> decide, by decide⟩
instance : DistinctlySpelled BuiltinFn := ⟨by intro a; cases a <;> decide, by decide +kernel⟩
instance : DistinctlySpelled TargetFn := ⟨by intro a; cases a <;> decide, by decide +kernel⟩
instance : DistinctlySpelled BuiltinValue := ⟨by intro a; cases a <;> decide, by decide⟩
instance : DistinctlySpelled InterpolationType := ⟨by intro a; cases a <;> decide, by decide⟩
instance : DistinctlySpelled InterpolationSampling := ⟨by intro a; cases a <;> decide, by decide⟩
instance : DistinctlySpelled Stage := ⟨by intro a; cases a <;> decide, by decide⟩

theorem carries_selector : Carries Selector.toJson Selector.ofJson Selector.positions where
  reads selector short := by
    cases selector with
    | otherwise => rfl
    | value id => simp [Selector.toJson, Selector.ofJson, ofVariant, carries_constId.reads id short]
  short read := by
    unfold Selector.ofJson at read
    split at read <;> simp only [bind_eq_ok, pure_eq_ok, reduceCtorEq, Except.ok.injEq] at read
    · cases read
      exact short_nil
    · cases read
      exact short_nil
    · obtain ⟨id, known, rfl⟩ := read
      exact carries_constId.short known

theorem carries_case : Carries Case.toJson Case.ofJson Case.positions where
  reads case short := by
    simp only [Case.positions, short_append] at short
    simp [Case.toJson, Case.ofJson, asRecord_of_nodup, carries_selector.list.reads _ short.1,
      carries_blockId.reads _ short.2]
  short read := by
    simp only [Case.ofJson, bind_eq_ok, pure_eq_ok] at read
    obtain ⟨members, -, selectors, first, block, second, rfl⟩ := read
    simp only [Case.positions, short_append]
    exact ⟨carries_selector.list.field first, carries_blockId.field second⟩

theorem carries_conditional : Carries Conditional.toJson Conditional.ofJson Conditional.positions where
  reads construct short := by
    simp only [Conditional.positions, short_append, and_assoc] at short
    obtain ⟨first, second, third, last⟩ := short
    simp [Conditional.toJson, Conditional.ofJson, asRecord_of_nodup, carries_value.reads _ first,
      carries_blockId.reads _ second, carries_blockId.reads _ third,
      carries_instId.list.reads _ last]
  short read := by
    simp only [Conditional.ofJson, bind_eq_ok, pure_eq_ok] at read
    obtain ⟨members, -, condition, first, whenTrue, second, whenFalse, third, exits, last, rfl⟩ := read
    simp only [Conditional.positions, short_append, and_assoc]
    exact ⟨carries_value.field first, carries_blockId.field second, carries_blockId.field third,
      carries_instId.list.field last⟩

theorem carries_loop : Carries Loop.toJson Loop.ofJson Loop.positions where
  reads construct short := by
    simp only [Loop.positions, short_append, and_assoc] at short
    obtain ⟨first, second, third, last⟩ := short
    simp [Loop.toJson, Loop.ofJson, asRecord_of_nodup,
      (carries_blockId.option fun _ => Json.noConfusion).reads _ first,
      carries_blockId.reads _ second, carries_blockId.reads _ third,
      carries_instId.list.reads _ last]
  short read := by
    simp only [Loop.ofJson, bind_eq_ok, pure_eq_ok] at read
    obtain ⟨members, -, initializer, first, body, second, continuing, third, exits, last, rfl⟩ := read
    simp only [Loop.positions, short_append, and_assoc]
    exact ⟨carries_blockId.optionalField first, carries_blockId.field second,
      carries_blockId.field third,
      carries_instId.list.field last⟩

theorem carries_switch : Carries Switch.toJson Switch.ofJson Switch.positions where
  reads construct short := by
    simp only [Switch.positions, short_append, and_assoc] at short
    obtain ⟨first, second, last⟩ := short
    simp [Switch.toJson, Switch.ofJson, asRecord_of_nodup, carries_value.reads _ first,
      carries_case.list.reads _ second,
      carries_instId.list.reads _ last]
  short read := by
    simp only [Switch.ofJson, bind_eq_ok, pure_eq_ok] at read
    obtain ⟨members, -, condition, first, cases, second, exits, last, rfl⟩ := read
    simp only [Switch.positions, short_append, and_assoc]
    exact ⟨carries_value.field first, carries_case.list.field second,
      carries_instId.list.field last⟩

theorem carries_interpolation : Carries Interpolation.toJson Interpolation.ofJson fun _ => [] where
  reads interpolation _ := by
    simp [Interpolation.toJson, Interpolation.ofJson, asRecord_of_nodup, carries_member.reads]
  short _ := short_nil

theorem carries_ioAttributes : Carries IoAttributes.toJson IoAttributes.ofJson fun _ => [] where
  reads attributes _ := by
    simp [IoAttributes.toJson, IoAttributes.ofJson, asRecord_of_nodup,
      (carries_word.option fun _ => Json.noConfusion).reads,
      (carries_interpolation.option fun _ => Json.noConfusion).reads,
      (carries_member.option fun _ => Json.noConfusion).reads attributes.builtin,
      carries_bool.reads]
  short _ := short_nil

theorem carries_bindingPoint : Carries BindingPoint.toJson BindingPoint.ofJson fun _ => [] where
  reads point _ := by
    simp [BindingPoint.toJson, BindingPoint.ofJson, asRecord_of_nodup, carries_word.reads]
  short _ := short_nil

theorem Value.toJson_ne_null (value : Value) : value.toJson ≠ .null := by
  intro null
  cases value <;> cases null

theorem carries_variable : Carries Variable.toJson Variable.ofJson Variable.positions where
  reads declaration short := by
    simp [Variable.toJson, Variable.ofJson, asRecord_of_nodup,
      (carries_value.option Value.toJson_ne_null).reads _ short,
      (carries_bindingPoint.option fun _ => Json.noConfusion).reads, carries_ioAttributes.reads,
      (carries_word.option fun _ => Json.noConfusion).reads]
  short read := by
    simp only [Variable.ofJson, bind_eq_ok, pure_eq_ok] at read
    obtain ⟨members, -, initializer, known, point, -, attributes, -, index, -, rfl⟩ := read
    exact carries_value.optionalField known

namespace Kind

theorem ofJson_toJson (kind : Kind) (short : Short kind.positions) : ofJson kind.toJson = .ok kind := by
  cases kind with
  | var declaration => simp [toJson, ofJson, ofParts, ofVariant, carries_variable.reads declaration short]
  | conditional owner => simp [toJson, ofJson, ofParts, ofVariant, carries_conditional.reads owner short]
  | loop owner => simp [toJson, ofJson, ofParts, ofVariant, carries_loop.reads owner short]
  | switch owner => simp [toJson, ofJson, ofParts, ofVariant, carries_switch.reads owner short]
  | terminate | unreachable => rfl
  | ret value =>
    simp [toJson, ofJson, ofParts, ofVariant, asRecord_of_nodup,
      (carries_value.option Value.toJson_ne_null).reads value short]
  | swizzle object indices =>
    simp only [positions, operands, List.flatMap_cons, List.flatMap_nil, List.append_nil] at short
    simp [toJson, ofJson, ofParts, ofVariant, asRecord_of_nodup, carries_value.reads object short,
      carries_word.list.reads]
  | _ =>
    simp only [positions, operands, List.flatMap_cons, List.flatMap_nil, List.append_nil, short_append] at short
    simp [toJson, ofJson, ofParts, ofVariant, asRecord_of_nodup, carries_value.reads,
      carries_value.list.reads,
      carries_member.reads, carries_instId.reads, carries_funcId.reads, short, -short_flatMap]

theorem short_ofParts {name : String} {kind : Kind} (read : ofParts name json = .ok kind) : Short kind.positions := by
  unfold ofParts at read
  split at read
  all_goals simp only [bind_eq_ok, pure_eq_ok, reduceCtorEq] at read
  case h_1 =>
    obtain ⟨declaration, known, rfl⟩ := read
    exact carries_variable.short known
  case h_2 =>
    obtain ⟨owner, known, rfl⟩ := read
    exact carries_conditional.short known
  case h_3 =>
    obtain ⟨owner, known, rfl⟩ := read
    exact carries_loop.short known
  case h_4 =>
    obtain ⟨owner, known, rfl⟩ := read
    exact carries_switch.short known
  case h_5 =>
    obtain ⟨members, -, object, first, indices, second, rfl⟩ := read
    exact short_append.mpr ⟨carries_value.field first, carries_value.list.field second⟩
  case h_6 =>
    obtain ⟨members, -, op, -, lhs, first, rhs, second, rfl⟩ := read
    simpa [positions, operands] using And.intro (carries_value.field first) (carries_value.field second)
  case h_7 =>
    obtain ⟨members, -, op, -, value, known, rfl⟩ := read
    simpa [positions, operands] using carries_value.field known
  case h_8 | h_9 | h_12 | h_16 =>
    obtain ⟨members, -, value, known, rfl⟩ := read
    simpa [positions, operands] using carries_value.field known
  case h_10 =>
    obtain ⟨members, -, args, known, rfl⟩ := read
    exact carries_value.list.field known
  case h_11 =>
    obtain ⟨members, -, object, known, indices, -, rfl⟩ := read
    simpa [positions, operands] using carries_value.field known
  case h_13 | h_14 =>
    obtain ⟨members, -, target, first, other, second, rfl⟩ := read
    simpa [positions, operands] using And.intro (carries_value.field first) (carries_value.field second)
  case h_15 =>
    obtain ⟨members, -, target, first, index, second, value, third, rfl⟩ := read
    simpa [positions, operands] using And.intro (carries_value.field first)
        (And.intro (carries_value.field second) (carries_value.field third))
  case h_17 | h_18 =>
    obtain ⟨members, -, fn, -, args, known, rfl⟩ := read
    exact carries_value.list.field known
  case h_19 =>
    obtain ⟨members, -, target, first, args, second, rfl⟩ := read
    exact short_append.mpr ⟨carries_funcId.field first, carries_value.list.field second⟩
  case h_20 =>
    obtain ⟨members, -, value, known, rfl⟩ := read
    exact carries_value.optionalField known
  case h_21 =>
    obtain ⟨members, -, condition, first, target, second, nextArgs, third, exitArgs, last, rfl⟩ := read
    simp only [positions, short_append, and_assoc]
    exact ⟨carries_value.field first, carries_instId.field second,
      carries_value.list.field third,
      carries_value.list.field last⟩
  case h_22 | h_23 | h_24 | h_25 | h_26 =>
    obtain ⟨members, -, target, first, args, second, rfl⟩ := read
    exact short_append.mpr ⟨carries_instId.field first, carries_value.list.field second⟩

theorem short_ofJson {kind : Kind} (read : ofJson json = .ok kind) : Short kind.positions := by
  unfold ofJson at read
  split at read
  case h_1 | h_2 | h_3 | h_4 =>
    cases read
    exact short_nil
  case h_5 => exact short_ofParts read
  case h_6 => cases read

end Kind

theorem carries_kind : Carries Kind.toJson Kind.ofJson Kind.positions := ⟨Kind.ofJson_toJson, Kind.short_ofJson⟩

theorem carries_inst : Carries Inst.toJson Inst.ofJson Inst.positions where
  reads inst short := by
    simp only [Inst.positions, short_append, and_assoc] at short
    obtain ⟨first, second, last⟩ := short
    simp [Inst.toJson, Inst.ofJson, asRecord_of_nodup, carries_kind.reads _ first,
      carries_valueId.list.reads _ second,
      carries_blockId.reads _ last]
  short read := by
    simp only [Inst.ofJson, bind_eq_ok, pure_eq_ok] at read
    obtain ⟨members, -, kind, first, results, second, block, last, rfl⟩ := read
    simp only [Inst.positions, short_append, and_assoc]
    exact ⟨carries_kind.field first, carries_valueId.list.field second,
      carries_blockId.field last⟩

theorem carries_origin : Carries Origin.toJson Origin.ofJson Origin.positions where
  reads origin short := by
    cases origin with
    | result inst => simp [Origin.toJson, Origin.ofJson, asVariant_ofVariant, carries_instId.reads inst short]
    | functionParam function =>
      simp [Origin.toJson, Origin.ofJson, asVariant_ofVariant, carries_funcId.reads function short]
    | blockParam block => simp [Origin.toJson, Origin.ofJson, asVariant_ofVariant,
        carries_blockId.reads block short]
  short read := by
    obtain ⟨variant, -, read⟩ := bind_eq_ok.mp read
    split at read <;> simp only [bind_eq_ok, pure_eq_ok, reduceCtorEq] at read
    · obtain ⟨inst, known, rfl⟩ := read
      exact carries_instId.short known
    · obtain ⟨function, known, rfl⟩ := read
      exact carries_funcId.short known
    · obtain ⟨block, known, rfl⟩ := read
      exact carries_blockId.short known

theorem carries_valueDef : Carries ValueDef.toJson ValueDef.ofJson ValueDef.positions where
  reads value short := by
    obtain ⟨first, last⟩ := short_append.mp short
    simp [ValueDef.toJson, ValueDef.ofJson, asRecord_of_nodup, carries_name.reads,
      carries_ty.reads _ first,
      carries_origin.reads _ last]
  short read := by
    simp only [ValueDef.ofJson, bind_eq_ok, pure_eq_ok] at read
    obtain ⟨members, -, ty, first, name, -, origin, last, rfl⟩ := read
    exact short_append.mpr ⟨carries_ty.field first, carries_origin.field last⟩

theorem carries_workgroup : Carries workgroupToJson workgroupOfJson fun _ => [] where
  reads size _ := by
    simp [workgroupToJson, workgroupOfJson, carries_word.reads]
  short _ := short_nil

theorem carries_function : Carries Function.toJson Function.ofJson Function.positions where
  reads function short := by
    simp only [Function.positions, short_append, and_assoc] at short
    obtain ⟨first, second, last⟩ := short
    simp [Function.toJson, Function.ofJson, asRecord_of_nodup, carries_text.reads,
      carries_valueId.list.reads _ first,
      carries_ty.reads _ second, carries_member.reads,
      (carries_workgroup.option fun _ => Json.noConfusion).reads,
      carries_blockId.reads _ last]
  short read := by
    simp only [Function.ofJson, bind_eq_ok, pure_eq_ok] at read
    obtain ⟨members, -, name, -, params, first, returnType, second, stage, -, size, -, entry, last, rfl⟩ := read
    simp only [Function.positions, short_append, and_assoc]
    exact ⟨carries_valueId.list.field first, carries_ty.field second,
      carries_blockId.field last⟩

theorem carries_block : Carries Block.toJson Block.ofJson Block.positions where
  reads block short := by
    simp only [Block.positions, short_append, and_assoc] at short
    obtain ⟨first, second, third, last⟩ := short
    simp [Block.toJson, Block.ofJson, asRecord_of_nodup, carries_instId.list.reads _ first,
      carries_valueId.list.reads _ second,
      (carries_instId.option fun _ => Json.noConfusion).reads _ third,
      carries_instId.list.reads _ last]
  short read := by
    simp only [Block.ofJson, bind_eq_ok, pure_eq_ok] at read
    obtain ⟨members, -, insts, first, params, second, parent, third, inbound, last, rfl⟩ := read
    simp only [Block.positions, short_append, and_assoc]
    exact ⟨carries_instId.list.field first, carries_valueId.list.field second,
      carries_instId.optionalField third,
      carries_instId.list.field last⟩

namespace Module

theorem present_eq_ok {α : Type} {decode : Json → Decoded α} {members : List (String × Json)} {name : String} {a : α} :
    present members name decode = .ok (some a) ↔ field members name decode = .ok a := by
  cases found : members.lookup name with
  | none => simp [present, field, found]
  | some json => simp only [present, field, found, bind_eq_ok, pure_eq_ok, Option.some.injEq, exists_eq_right]

/-- All six tables have to be there. -/
theorem ofJson_eq_ok : ofJson json = .ok m ↔ ∃ members,
    json.asRecord ["structs", "constants", "values", "insts", "blocks", "functions"] = .ok members ∧
      field members "structs" (asList StructDef.ofJson) = .ok m.structs.toList ∧
      field members "constants" Pool.ofJson = .ok m.constants ∧
      field members "values" (asList ValueDef.ofJson) = .ok m.values.toList ∧
      field members "insts" (asList Inst.ofJson) = .ok m.insts.toList ∧
      field members "blocks" (asList Block.ofJson) = .ok m.blocks.toList ∧
      field members "functions" (asList Function.ofJson) = .ok m.functions.toList := by
  simp only [← present_eq_ok]
  constructor
  · intro read
    simp only [ofJson, bind_eq_ok] at read
    obtain ⟨members, record, blocks, first, constants, second, functions, third, insts, fourth, structs, fifth, values,
      last, read⟩ := read
    split at read
    · cases read
      exact ⟨members, record, fifth, second, last, fourth, first, third⟩
    · cases read
  · rintro ⟨members, record, structs, constants, values, insts, blocks, functions⟩
    rw [ofJson, record, ok_bind, blocks, ok_bind, constants, ok_bind, functions, ok_bind, insts, ok_bind, structs,
      ok_bind, values, ok_bind]
    rfl

theorem ofJson_toJson (stored : m.constants.Canonical) (short : Short m.positions) : ofJson m.toJson = .ok m := by
  simp only [positions, short_append, and_assoc] at short
  obtain ⟨structs, constants, values, insts, blocks, functions⟩ := short
  refine ofJson_eq_ok.mpr ⟨_, asRecord_of_nodup (by simp), ?_⟩
  simp [carries_structDef.list.reads _ structs, Pool.ofJson_toJson stored constants,
    carries_valueDef.list.reads _ values, carries_inst.list.reads _ insts,
    carries_block.list.reads _ blocks,
    carries_function.list.reads _ functions]

theorem canonical_and_short_of_ofJson (read : ofJson json = .ok m) : m.constants.Canonical ∧ Short m.positions := by
  obtain ⟨members, -, structs, constants, values, insts, blocks, functions⟩ := ofJson_eq_ok.mp read
  obtain ⟨pool, -, known⟩ := field_eq_ok.mp constants
  obtain ⟨stored, short⟩ := Pool.canonical_and_short_of_ofJson known
  refine ⟨stored, ?_⟩
  simp only [positions, short_append, and_assoc]
  exact ⟨carries_structDef.list.field structs, short,
    carries_valueDef.list.field values,
    carries_inst.list.field insts, carries_block.list.field blocks,
    carries_function.list.field functions⟩

/-- The modules that are read as they were written are those with a canonical pool and short positions, and every
module that is read is one of them. -/
theorem ofJson_toJson_iff (m : Module) : (ofJson m.toJson = .ok m ↔ m.constants.Canonical ∧ Short m.positions) ∧
      ∀ json, ofJson json = .ok m → ofJson m.toJson = .ok m := by
  refine ⟨⟨canonical_and_short_of_ofJson, fun fit => ofJson_toJson fit.1 fit.2⟩, fun json read => ?_⟩
  obtain ⟨stored, short⟩ := canonical_and_short_of_ofJson read
  exact ofJson_toJson stored short

/-- A function that returns a pair of equal numbers, and a struct that it does not use. -/
def twins : Module where
  structs := #[⟨none, [⟨some "count", .atomic .u32, 4⟩], true⟩]
  constants := ⟨#[.scalar (.f32 0), .splat (.vector .f32 2) ⟨0⟩ 2]⟩
  insts := #[⟨.ret (some (.constant ⟨1⟩)), [], ⟨1⟩⟩]
  blocks := #[{}, { insts := [⟨0⟩] }]
  functions := #[⟨"pair", [], .vector .f32 2, .none, none, ⟨1⟩⟩]

/-- The same module as it may be handed in: in another order, with the pair spelled out, with something to ignore, with
null for the parts of a choice that has none and with arrays for some of the records. -/
def twinsHandedIn : Json :=
  .obj [("functions", .arr [.obj [("name", .str "pair"), ("params", .arr []),
      ("return_type", .ofVariant "Vector" (.arr [.ofVariant "F32" .null, .int 2])), ("stage", .ofVariant "None" .null),
      ("block", .int 1)]]),
    ("values", .arr []), ("note", .decimal "1.5"),
    ("constants", .obj [("items", .arr [.ofVariant "Scalar" (.ofVariant "F32" (.int 0)),
      .ofVariant "Composite" (.obj [("ty", .ofVariant "Vector" (.obj [("elem", .str "F32"), ("width", .int 2)])),
        ("elements", .arr [.int 0, .int 0])])])]),
    ("blocks", .arr [.arr [.arr [], .arr [], .null, .arr []],
      .obj [("insts", .arr [.int 0]), ("params", .arr []), ("parent", .null), ("inbound", .arr [])]]),
    ("insts", .arr [.obj [("kind", .ofVariant "Return" (.obj [("value", .ofVariant "Constant" (.int 1))])),
      ("results", .arr []), ("block", .int 1)]]),
    ("structs", .arr [.obj [("members", .arr [.obj [("name", .str "count"), ("ty", .ofVariant "Atomic" (.str "U32")),
      ("offset", .int 4)]]), ("block", .bool true)]])]

theorem twins_ofJson_toJson : ofJson twinsHandedIn = .ok twins ∧ (twins.constants.Canonical ∧ Short twins.positions) ∧
    ofJson twins.toJson = .ok twins := by
  have read : ofJson twinsHandedIn = .ok twins := by decide +kernel
  have written := (ofJson_toJson_iff twins).2 twinsHandedIn read
  exact ⟨read, (ofJson_toJson_iff twins).1.mp written, written⟩

end Module
end Shader
