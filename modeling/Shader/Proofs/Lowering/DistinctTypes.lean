import Shader.Proofs.Lowering.ConstantIds
import Shader.Proofs.Lowering.WellFormedTypes

/-!
Declarations of types tell the types apart.

The declaration of a type with well-formed parts says all that its normal form says, with one exception: what a pointer
allows is not part of its declaration, and yet it is part of the normal form. So of two declarations with the same
opcode and operands, other than of arrays and structs, which have their layout besides, both are of pointers that
differ in this alone. Function types are told apart by the ids of their parts.
-/
namespace Shader

open Binary List

variable {first second : Instruction}

/-- Types that are more than their parts: their layout is told by decorations. -/
def Binary.Opcode.isAggregate : Opcode → Bool
  | .typeArray | .typeRuntimeArray | .typeStruct => true
  | _ => false

theorem Ty.normal_of_isScalar {ty : Ty} (scalar : ty.isScalar = true) : ty.normal = ty := by
  cases ty <;> first | rfl | cases scalar

namespace Lower

theorem storageClass_inj {space other : AddressSpace} {storage : Word} (stored : storageClass space = .ok storage)
    (also : storageClass other = .ok storage) : space = other := by
  cases space <;> cases stored <;> cases other <;> first | rfl | cases also

theorem imageFormat_inj {format other : TexelFormat} {word : Word} (formatted : imageFormat format = .ok word)
    (also : imageFormat other = .ok word) : format = other := by
  cases format <;> cases formatted <;> cases other <;> first | rfl | cases also

namespace ImageUse

variable {use other : ImageUse} {dim shape : TextureDim} {dimWord format : Word}

/-- An attachment is told from a storage image by its dimension. -/
theorem dim_ne_attachment {texel : TexelFormat} (shaped : (ImageUse.storage texel).dim dim = .ok dimWord) :
    ImageUse.attachment.dim shape ≠ .ok dimWord := by
  rintro ⟨⟩
  cases dim <;> cases shaped

theorem eq_of_words (shaped : use.dim dim = .ok dimWord) (alsoShaped : other.dim shape = .ok dimWord)
    (formatted : use.formatWord = .ok format) (alsoFormatted : other.formatWord = .ok format)
    (samples : use.multisampledWord = other.multisampledWord) (sampled : use.sampledWord = other.sampledWord) :
    use = other := by
  cases use <;> cases other
  case storage.storage => rw [imageFormat_inj formatted alsoFormatted]
  case storage.attachment => exact absurd alsoShaped (dim_ne_attachment shaped)
  case attachment.storage => exact absurd shaped (dim_ne_attachment alsoShaped)
  all_goals first | rfl | simp [multisampledWord, sampledWord] at samples sampled

theorem dim_eq_of_word (apart : use ≠ .attachment) (shaped : use.dim dim = .ok dimWord)
    (alsoShaped : use.dim shape = .ok dimWord)
    (layers : dim.isArrayed = shape.isArrayed) : dim = shape := by
  cases use with
  | attachment => exact absurd rfl apart
  | _ =>
    cases dim <;> cases shaped <;> cases shape <;> first | rfl | (cases layers; done) | cases alsoShaped

end ImageUse

end Lower

theorem TextureDim.isArrayed_of_word {dim shape : TextureDim}
    (same : (if dim.isArrayed then 1 else 0 : Word) = if shape.isArrayed then 1 else 0) :
    dim.isArrayed = shape.isArrayed := by
  cases held : dim.isArrayed <;> cases also : shape.isArrayed <;> first | rfl | simp [held, also] at same

namespace Ty

open Lower

variable {ty other : Ty} {use : ImageUse} {dim : TextureDim} {sampled : Ty}

theorem isScalar_of_image? (used : ty.image? = some (use, dim, sampled)) (formed : ty.isWellFormed = true) :
    sampled.isScalar = true := by
  cases ty <;> cases used <;> exact formed

theorem dim_of_attachment (used : ty.image? = some (.attachment, dim, sampled)) : dim = .d2 := by
  cases ty <;> cases used
  rfl

theorem image?_inj {image : ImageUse × TextureDim × Ty} (normal : ty.normal = ty)
    (also : other.normal = other) (used : ty.image? = some image) (same : other.image? = some image) : ty = other := by
  cases ty <;> cases used <;> cases other <;> cases same
  · rfl
  · rfl
  · rw [← normal, ← also]
    rfl
  · rfl

end Ty

namespace LowerState

open Lower

variable {m : Module} {s : LowerState} {ty other : Ty} {id word : Word} {inst also : Instruction}

theorem Describes.form (describes : Describes m s id ty inst) : inst.resultType = none ∧ inst.result = some id := by
  cases describes <;> exact ⟨rfl, rfl⟩

theorem Interned.scalar_eq (start : Interned m s) (first : HasType ty id s) (second : HasType other id s)
    (scalar : ty.isScalar = true) (also : other.isScalar = true) : ty = other := by
  rw [← Ty.normal_of_isScalar scalar, ← Ty.normal_of_isScalar also, start.type_eq first second]

/-- The declaration of an image tells its use, its dimension and its texels. -/
theorem Describes.image_eq (start : Interned m s) (first : Describes m s id ty inst)
    (second : Describes m s word other also) (op : inst.op = .typeImage) (sameOp : also.op = .typeImage)
    (sameOperands : also.operands = inst.operands) (normal : ty.normal = ty) (alsoNormal : other.normal = other)
    (formed : ty.isWellFormed = true) (alsoFormed : other.isWellFormed = true) : ty = other := by
  cases first with
  | @image _ use dim _ _ _ _ used sampledType shaped formatted =>
    cases second with
    | @image _ alsoUse alsoDim _ _ _ _ alsoUsed alsoType alsoShaped alsoFormatted =>
      simp only [cons.injEq, Operand.id.injEq, Operand.literal.injEq, and_true, true_and] at sameOperands
      obtain ⟨rfl, rfl, layers, samples, sampling, rfl⟩ := sameOperands
      cases ImageUse.eq_of_words shaped alsoShaped formatted alsoFormatted samples.symm sampling.symm
      cases start.scalar_eq sampledType alsoType (Ty.isScalar_of_image? used formed)
        (Ty.isScalar_of_image? alsoUsed alsoFormed)
      have sameDim : dim = alsoDim := by
        by_cases attached : use = .attachment
        · subst attached
          rw [Ty.dim_of_attachment used, Ty.dim_of_attachment alsoUsed]
        · exact ImageUse.dim_eq_of_word attached shaped alsoShaped (TextureDim.isArrayed_of_word layers.symm)
      exact Ty.image?_inj normal alsoNormal used (sameDim ▸ alsoUsed)
    | _ => cases sameOp
  | _ => cases op

/-- The types differ at most in what a pointer allows. -/
def SamePointee (ty other : Ty) : Prop :=
  ∃ space store access permitted, ty = .pointer space store access ∧ other = .pointer space store permitted

/-- The declaration tells the type in normal form, apart from what a pointer allows. -/
theorem Describes.eq_or_samePointee (start : Interned m s) (first : Describes m s id ty inst)
    (second : Describes m s word other { inst with result := some word }) (normal : ty.normal = ty)
    (alsoNormal : other.normal = other) (formed : ty.isWellFormed = true) (alsoFormed : other.isWellFormed = true)
    (plain : inst.op.isAggregate = false) : ty = other ∨ SamePointee ty other := by
  cases first with
  | void | bool | i32 | u32 | f32 | f16 | sampler =>
    cases second
    exact .inl rfl
  | vector elemType =>
    cases second with
    | vector alsoType => rw [start.scalar_eq elemType alsoType formed alsoFormed]; exact .inl rfl
  | matrix columnType =>
    cases second with
    | matrix alsoType =>
      cases start.type_eq columnType alsoType
      exact .inl rfl
  | array | runtimeArray | struct => cases plain
  | pointer storeType stored =>
    cases second with
    | pointer alsoType alsoStored =>
      cases storageClass_inj stored alsoStored
      rw [← normal, ← alsoNormal, Ty.normal, Ty.normal, start.type_eq storeType alsoType]
      exact .inr ⟨_, _, _, _, rfl, rfl⟩
  | sampledImage imageType =>
    cases second with
    | sampledImage alsoType =>
      rw [← normal, ← alsoNormal, Ty.normal, Ty.normal, start.type_eq imageType alsoType]
      exact .inl rfl
  | image used sampledType shaped formatted =>
    exact .inl (image_eq start (.image used sampledType shaped formatted) second rfl rfl rfl normal alsoNormal formed
      alsoFormed)

/-- The declarations of types, of values and of functions. -/
def statedTypes (s : LowerState) : List Instruction :=
  s.out.globals.toList.filter fun inst => inst.op.isType || inst.op = .typeFunction

/-- The declarations are of two pointers that differ only in what they allow. -/
def TwinPointers (m : Module) (s : LowerState) (first second : Instruction) : Prop :=
  first.op = .typePointer ∧ ∃ space store access permitted id word, access ≠ permitted ∧
    first.result = some id ∧ Asked m s (.pointer space store access) id ∧
    second.result = some word ∧ Asked m s (.pointer space store permitted) word

/-- A declared type is in the table, with its declaration. -/
theorem Interned.described (start : Interned m s) (leads : Leads [] (fun _ => True) (prepared m) s)
    (member : inst ∈ s.out.globals.toList) (isType : inst.op.isType = true) :
    ∃ ty id, (ty, id) ∈ s.types.entries ∧ inst ∈ s.declarations id ∧ Describes m s id ty inst := by
  obtain ⟨ty, id, result, entered⟩ := mem_types_of_isType start leads member isType
  obtain ⟨only, declared, describes⟩ := (start.types _ entered).declared
  have among : inst ∈ s.declarations id := by
    rw [declarations, mem_filter, target?_of_isType isType, result]
    exact ⟨member, by simp⟩
  rw [declared, mem_singleton] at among
  subst among
  exact ⟨ty, id, entered, by simp [declared], describes⟩

/-- Two declarations of one id are the same one. -/
theorem Interned.not_twice (start : Interned m s) (entered : (ty, id) ∈ s.types.entries)
    (before : [first, second].Sublist s.out.globals.toList) (here : first.target? = some id)
    (there : second.target? = some id) : False := by
  obtain ⟨only, declared, -⟩ := (start.types _ entered).declared
  have kept := before.filter fun inst => decide (inst.target? = some id)
  rw [show s.out.globals.toList.filter _ = [only] from declared] at kept
  simpa [here, there] using kept.length_le

end LowerState

namespace Lower

open LowerState

variable {m : Module} {options : Options} {state : LowerState}

/-- Function types are told apart by their operands. -/
theorem functionTypes_apart (ran : Ran m options state) (stated : [first, second].Sublist state.out.globals.toList)
    (isFunction : first.op = .typeFunction) (sameOp : first.op = second.op) : first.operands ≠ second.operands := by
  have once : ((state.declaredWith .typeFunction).map Instruction.operands).Nodup := by
    refine (shared_of_run ran).signatures.nodup ?_
    rintro ⟨⟨returned, params⟩, _⟩ ⟨⟨other, others⟩, _⟩ _ _ rfl rfl same
    simp only [cons.injEq, Operand.id.injEq] at same
    rw [same.1, map_injective_iff.mpr (fun _ _ => Operand.id.inj) same.2]
  have kept := (stated.filter fun inst => decide (inst.op = .typeFunction)).map Instruction.operands
  simp only [← sameOp, isFunction, decide_true, filter_cons_of_pos, filter_nil, map_cons,
    map_nil] at kept
  intro same
  simpa [same] using once.sublist kept

/-- Of two declarations of types of values that are alike, both are of pointers that differ in what they allow. -/
theorem valueTypes_apart (formed : m.TypesWellFormed) (ran : Ran m options state)
    (stated : [first, second].Sublist state.out.globals.toList) (isType : first.op.isType = true)
    (plain : first.op.isAggregate = false) (sameOp : first.op = second.op)
    (sameOperands : first.operands = second.operands) : TwinPointers m state first second := by
  obtain ⟨start, leads⟩ := interned_of_run ran
  have regular := regular_of_run formed ran
  obtain ⟨ty, id, entered, here, describes⟩ := start.described leads (stated.subset (by simp)) isType
  obtain ⟨other, word, alsoEntered, there, alsoDescribes⟩ :=
    start.described leads (stated.subset (by simp)) (sameOp ▸ isType : second.op.isType = true)
  have apart : ty ≠ other := by
    rintro rfl
    cases inj_on_of_nodup_map start.keys entered alsoEntered rfl
    exact start.not_twice entered stated (by simpa using (mem_filter.mp here).2)
      (by simpa using (mem_filter.mp there).2)
  have alike : second = { first with result := some word } := by
    obtain ⟨untyped, -⟩ := describes.form
    obtain ⟨alsoUntyped, result⟩ := alsoDescribes.form
    obtain ⟨op, resultType, _, operands⟩ := second
    simp_all
  have normal := (start.types _ entered).normal
  have alsoNormal := (start.types _ alsoEntered).normal
  rcases describes.eq_or_samePointee start (alike ▸ alsoDescribes) normal alsoNormal (regular.types _ entered)
    (regular.types _ alsoEntered) plain with same | ⟨space, store, access, permitted, rfl, rfl⟩
  · exact absurd same apart
  · have isPointer : first.op = .typePointer := by
      cases describes with
      | pointer => rfl
      | image used => cases used
    refine ⟨isPointer, space, store, access, permitted, id, word, fun same => apart (same ▸ rfl), describes.form.2,
      (asked_iff start).mpr ?_, alsoDescribes.form.2, (asked_iff start).mpr ?_⟩
    · rwa [normal]
    · rwa [alsoNormal]

/-- No two types of a lowered module, other than arrays and structs, are declared by the same opcode and operands,
unless they are pointers that differ in what they allow. Types that the target cannot tell apart for another reason
have one id. -/
theorem types_declared_apart (formed : m.TypesWellFormed)
    (ran : (emitModule m options).run { pool := m.constants } = .ok ((), state)) :
    (state.statedTypes.Pairwise fun first second => first.op = second.op → first.operands = second.operands →
      first.op.isAggregate = true ∨ TwinPointers m state first second) ∧
      ∀ {t u a b}, Asked m state t a → Asked m state u b → t.normal = u.normal → a = b := by
  refine ⟨pairwise_iff_forall_sublist.mpr fun {first second} stated sameOp sameOperands => ?_,
    fun asked also same => ?_⟩
  · have member : first ∈ state.statedTypes := stated.subset mem_cons_self
    have among := stated.trans filter_sublist
    by_cases isFunction : first.op = .typeFunction
    · exact absurd sameOperands (functionTypes_apart ran among isFunction sameOp)
    · have isType : first.op.isType = true := by simpa [isFunction] using (mem_filter.mp member).2
      refine Classical.or_iff_not_imp_left.mpr fun aggregate => ?_
      exact valueTypes_apart formed ran among isType (by simpa using aggregate) sameOp sameOperands
  · obtain ⟨start, -⟩ := interned_of_run ran
    rw [asked_iff start] at asked also
    rw [same] at asked
    exact congrArg Prod.snd (inj_on_of_nodup_map start.keys asked also rfl)

theorem aliased_types_apart : aliased.TypesWellFormed ∧ ∃ state,
    (emitModule aliased {}).run { pool := aliased.constants } = .ok ((), state) ∧ state.statedTypes.length = 10 ∧
      (state.statedTypes.Pairwise fun first second => first.op = second.op → first.operands = second.operands →
        first.op.isAggregate = true ∨ TwinPointers aliased state first second) ∧
      ∀ {t u a b}, Asked aliased state t a → Asked aliased state u b → t.normal = u.normal → a = b := by
  have formed : aliased.TypesWellFormed := by decide +kernel
  obtain ⟨⟨⟨⟩, state⟩, ran, same⟩ : ∃ result, (emitModule aliased {}).run { pool := aliased.constants } = .ok result ∧
      result.2.statedTypes.length = 10 := by
    decide +kernel
  exact ⟨formed, state, ran, same, types_declared_apart formed ran⟩

/-- Two buffers of one struct, one to read and one to write as well. -/
def twoBuffers : Module where
  structs := #[⟨some "S", [⟨some "a", .u32, 0⟩], true⟩]
  constants := .empty
  values := #[⟨.pointer .storage (.struct ⟨0⟩) .read, none, .result ⟨0⟩⟩,
    ⟨.pointer .storage (.struct ⟨0⟩) .readWrite, none, .result ⟨1⟩⟩]
  insts := #[⟨.var { bindingPoint := some ⟨0, 0⟩ }, [⟨0⟩], ⟨0⟩⟩, ⟨.var { bindingPoint := some ⟨0, 1⟩ }, [⟨1⟩], ⟨0⟩⟩]
  blocks := #[{ insts := [⟨0⟩, ⟨1⟩] }]

/-- One pointer type is declared twice. -/
theorem twoBuffers_pointer_twice : twoBuffers.TypesWellFormed ∧ ∃ state,
    (emitModule twoBuffers {}).run { pool := twoBuffers.constants } = .ok ((), state) ∧
      ¬state.statedTypes.Pairwise fun first second => first.op = second.op → first.operands = second.operands →
        first.op.isAggregate = true := by
  obtain ⟨⟨⟨⟩, state⟩, ran, same⟩ : ∃ result, (emitModule twoBuffers {}).run { pool := twoBuffers.constants } =
      .ok result ∧ (result.2.statedTypes.map fun inst => (inst.op, inst.operands)) =
        [(.typeInt, [.literal 32, .literal 0]), (.typeStruct, [.id 4]), (.typePointer, [.literal 12, .id 3]),
          (.typePointer, [.literal 12, .id 3])] := by
    decide +kernel
  refine ⟨by decide +kernel, state, ran, fun apart => ?_⟩
  have listed : (state.statedTypes.map fun inst => (inst.op, inst.operands)).Pairwise fun first second =>
      first.1 = second.1 → first.2 = second.2 → first.1.isAggregate = true := pairwise_map.mpr apart
  rw [same] at listed
  revert listed
  decide

end Lower
end Shader
