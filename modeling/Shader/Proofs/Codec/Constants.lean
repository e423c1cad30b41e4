import Shader.Proofs.Codec.Carries
import Shader.Proofs.Codec.Positions
import Shader.Proofs.Pool

/-!
Types, constants and pools are read as they were written.

Reading a pool stores the constants in their canonical form. So a pool is read as it was written exactly if it holds
canonical constants and none of them twice; and what is read is such a pool.
-/
namespace Shader

open Json Carries Constant

theorem carries_structId : Carries StructId.toJson StructId.ofJson StructId.positions :=
  carries_index (fun _ => rfl) fun _ => rfl

theorem carries_constId : Carries ConstId.toJson ConstId.ofJson ConstId.positions :=
  carries_index (fun _ => rfl) fun _ => rfl

theorem carries_valueId : Carries ValueId.toJson ValueId.ofJson ValueId.positions :=
  carries_index (fun _ => rfl) fun _ => rfl

theorem carries_instId : Carries InstId.toJson InstId.ofJson InstId.positions :=
  carries_index (fun _ => rfl) fun _ => rfl

theorem carries_blockId : Carries BlockId.toJson BlockId.ofJson BlockId.positions :=
  carries_index (fun _ => rfl) fun _ => rfl

theorem carries_funcId : Carries FuncId.toJson FuncId.ofJson FuncId.positions :=
  carries_index (fun _ => rfl) fun _ => rfl

instance : DistinctlySpelled AddressSpace := ⟨by intro a; cases a <;> decide, by decide⟩
instance : DistinctlySpelled Access := ⟨by intro a; cases a <;> decide, by decide⟩
instance : DistinctlySpelled TextureDim := ⟨by intro a; cases a <;> decide, by decide⟩
instance : DistinctlySpelled TexelFormat := ⟨by intro a; cases a <;> decide, by decide⟩
instance : DistinctlySpelled SamplerKind := ⟨by intro a; cases a <;> decide, by decide⟩

theorem carries_arrayCount : Carries ArrayCount.toJson ArrayCount.ofJson fun _ => [] where
  reads count _ := by
    cases count with
    | constant count => simp [ArrayCount.toJson, ArrayCount.ofJson, ofVariant, reads carries_word]
    | runtime => rfl
  short _ := short_nil

namespace Ty

theorem ofJson_toJson (ty : Ty) (short : Short ty.positions) : ofJson ty.toJson = .ok ty := by
  induction ty with
  | void | bool | i32 | u32 | f32 | f16 => rfl
  | struct id => simp [toJson, ofVariant, ofJson, reads carries_structId id short]
  | sampler kind => simp [toJson, ofVariant, ofJson, reads carries_member kind]
  | depthTexture dim | depthMultisampledTexture dim =>
    simp [toJson, ofVariant, ofJson, partNames, asRecord_of_nodup, ofMembers, reads carries_member]
  | atomic inner ih | sampledImage inner ih => simp [toJson, ofVariant, ofJson, ih short]
  | _ =>
    rename_i ih
    simp [toJson, ofVariant, ofJson, partNames, asRecord_of_nodup, ofMembers, part, memberOf, reads carries_member,
      reads carries_word, reads carries_arrayCount, ih short]

theorem short_simple {name : String} {ty : Ty} (read : simple name = .ok ty) : Short ty.positions := by
  unfold simple at read
  split at read <;> cases read <;> exact short_nil

/-- A type has the positions of the type in its one part that is a type. -/
theorem short_ofMembers {name : String} {members : List (String × Json)} {part : String → Decoded Ty} {ty : Ty}
    (parts : ∀ key ty, part key = .ok ty → Short ty.positions) (read : ofMembers name members part = .ok ty) :
    Short ty.positions := by
  unfold ofMembers at read
  split at read <;> simp only [bind_eq_ok, pure_eq_ok, reduceCtorEq] at read
  · obtain ⟨elem, known, width, -, rfl⟩ := read
    exact parts _ elem known
  · obtain ⟨elem, known, columns, -, rows, -, rfl⟩ := read
    exact parts _ elem known
  · obtain ⟨elem, known, count, -, stride, -, rfl⟩ := read
    exact parts _ elem known
  · obtain ⟨space, -, store, known, access, -, rfl⟩ := read
    exact parts _ store known
  · obtain ⟨dim, -, sampled, known, rfl⟩ := read
    exact parts _ sampled known
  · obtain ⟨dim, -, sampled, known, rfl⟩ := read
    exact parts _ sampled known
  · obtain ⟨dim, -, rfl⟩ := read
    exact short_nil
  · obtain ⟨dim, -, rfl⟩ := read
    exact short_nil
  · obtain ⟨dim, -, format, -, access, -, sampled, known, rfl⟩ := read
    exact parts _ sampled known
  · obtain ⟨sampled, known, rfl⟩ := read
    exact parts _ sampled known

mutual

theorem short_ofJson (json : Json) (ty : Ty) (read : ofJson json = .ok ty) : Short ty.positions := by
  match json with
  | .str name => exact short_simple read
  | .obj [(name, json)] =>
    unfold ofJson at read
    split at read
    · obtain ⟨inner, known, same⟩ := bind_eq_ok.mp read
      cases same
      exact short_ofJson json inner known
    · obtain ⟨image, known, same⟩ := bind_eq_ok.mp read
      cases same
      exact short_ofJson json image known
    · obtain ⟨id, known, same⟩ := bind_eq_ok.mp read
      cases same
      exact short carries_structId known
    · obtain ⟨kind, -, same⟩ := bind_eq_ok.mp read
      cases same
      exact short_nil
    · have parts := fun key ty => short_part key (partNames name) json ty
      split at read
      · exact short_simple read
      · obtain ⟨members, -, known⟩ := bind_eq_ok.mp read
        exact short_ofMembers parts known
  | .null | .bool _ | .int _ | .decimal _ | .raw _ | .arr _ | .obj [] | .obj (_ :: _ :: _) => cases read
termination_by structural json

theorem short_part (key : String) (known : List String) (json : Json) (ty : Ty)
    (read : part key known json = .ok ty) : Short ty.positions := by
  match json with
  | .obj members => exact short_memberOf key members ty read
  | .arr items => exact short_itemOf key known items ty read
  | .null | .bool _ | .int _ | .decimal _ | .str _ | .raw _ => cases read
termination_by structural json

theorem short_memberOf (key : String) (members : List (String × Json)) (ty : Ty)
    (read : memberOf key members = .ok ty) : Short ty.positions := by
  match members with
  | [] => cases read
  | (name, json) :: members =>
    rw [memberOf] at read
    split at read
    · exact short_ofJson json ty read
    · exact short_memberOf key members ty read
termination_by structural members

theorem short_itemOf (key : String) (known : List String) (items : List Json) (ty : Ty)
    (read : itemOf key known items = .ok ty) : Short ty.positions := by
  match known, items with
  | name :: known, json :: items =>
    rw [itemOf] at read
    split at read
    · exact short_ofJson json ty read
    · exact short_itemOf key known items ty read
  | [], [] | [], _ :: _ | _ :: _, [] => cases read
termination_by structural items

end

end Ty

theorem carries_ty : Carries Ty.toJson Ty.ofJson Ty.positions := ⟨Ty.ofJson_toJson, Ty.short_ofJson _ _⟩

theorem carries_name : Carries (ofOption str) (asOption asText) fun _ => [] where
  reads name _ := (option carries_text fun _ => Json.noConfusion).reads name (by simp)
  short _ := short_nil

theorem carries_structMember : Carries Member.toJson Member.ofJson Member.positions where
  reads member short := by
    simp [Member.toJson, Member.ofJson, asRecord_of_nodup, reads carries_name, reads carries_word,
      reads carries_ty member.ty short]
  short read := by
    simp only [Member.ofJson, bind_eq_ok, pure_eq_ok] at read
    obtain ⟨members, -, name, -, ty, known, offset, -, rfl⟩ := read
    exact field carries_ty known

theorem carries_structDef : Carries StructDef.toJson StructDef.ofJson StructDef.positions where
  reads definition short := by
    simp [StructDef.toJson, StructDef.ofJson, asRecord_of_nodup, reads carries_name, reads carries_bool,
      (list carries_structMember).reads definition.members short]
  short read := by
    simp only [StructDef.ofJson, bind_eq_ok, pure_eq_ok] at read
    obtain ⟨members, -, name, -, parts, known, block, -, rfl⟩ := read
    exact field (list carries_structMember) known

theorem carries_value : Carries Value.toJson Value.ofJson Value.positions where
  reads value short := by
    cases value with
    | constant id => simp [Value.toJson, Value.ofJson, asVariant_ofVariant, reads carries_constId id short]
    | ssa id => simp [Value.toJson, Value.ofJson, asVariant_ofVariant, reads carries_valueId id short]
    | literal word => simp [Value.toJson, Value.ofJson, asVariant_ofVariant, reads carries_word]
  short read := by
    obtain ⟨variant, -, read⟩ := bind_eq_ok.mp read
    split at read <;> simp only [bind_eq_ok, pure_eq_ok, reduceCtorEq] at read
    · obtain ⟨id, known, rfl⟩ := read
      exact short carries_constId known
    · obtain ⟨id, known, rfl⟩ := read
      exact short carries_valueId known
    · obtain ⟨word, -, rfl⟩ := read
      exact short_nil

theorem asInt32_int_toInt (value : Int32) : asInt32 (.int value.toInt) = .ok value := by
  have least := value.le_toInt
  have most := value.toInt_lt
  rw [asInt32, if_pos ⟨by simpa using least, by simpa using most⟩, Int32.ofInt_toInt]

theorem asHalfWord_nat_toNat (value : UInt16) : asHalfWord (.nat value.toNat) = .ok value := by
  rw [asHalfWord, show (nat value.toNat).asNatBelow 0x10000 = .ok value.toNat from
    asNatBelow_eq_ok.mpr ⟨rfl, value.toNat_lt⟩]
  simp

theorem carries_scalar : Carries Scalar.toJson Scalar.ofJson fun _ => [] where
  reads value _ := by
    cases value <;> simp [Scalar.toJson, Scalar.ofJson, asVariant_ofVariant, reads carries_word,
    reads carries_bool, asInt32_int_toInt, asHalfWord_nat_toNat]
  short _ := short_nil

theorem carries_constant : Carries toJson ofJson positions where
  reads constant short := by
    cases constant with
    | scalar value => simp [toJson, ofJson, asVariant_ofVariant, reads carries_scalar]
    | composite ty elements =>
      simp only [positions, short_append] at short
      simp [toJson, ofJson, asVariant_ofVariant, asRecord_of_nodup,
        reads carries_ty ty short.1,
        (list carries_constId).reads elements short.2]
    | splat ty element count =>
      simp only [positions, short_append] at short
      simp [toJson, ofJson, asVariant_ofVariant, asRecord_of_nodup,
        reads carries_ty ty short.1,
        reads carries_constId element short.2, reads carries_word]
  short read := by
    obtain ⟨variant, -, read⟩ := bind_eq_ok.mp read
    split at read <;> simp only [bind_eq_ok, pure_eq_ok, reduceCtorEq] at read
    · obtain ⟨value, -, rfl⟩ := read
      exact short_nil
    · obtain ⟨members, -, ty, first, elements, second, rfl⟩ := read
      exact short_append.mpr ⟨field carries_ty first, field (list carries_constId) second⟩
    · obtain ⟨members, -, ty, first, element, second, count, -, rfl⟩ := read
      exact short_append.mpr ⟨field carries_ty first, field carries_constId second⟩

/-- The canonical form names nothing new. -/
theorem Constant.short_canonical {constant : Constant} (short : Short constant.positions) :
    Short constant.canonical.positions := by
  cases constant with
  | scalar | splat => exact short
  | composite ty elements =>
    cases elements with
    | nil => exact short
    | cons first rest =>
      rw [canonical]
      split
      · simp only [positions, List.flatMap_cons, short_append] at short ⊢
        exact ⟨short.1, short.2.1⟩
      · exact short

namespace Pool

theorem ofJson_toJson {pool : Pool} (stored : pool.Canonical) (short : Short pool.positions) :
    ofJson pool.toJson = .ok pool := by
  have same : pool.items.toList.map canonical = pool.items.toList := by
    conv_rhs => rw [← List.map_id pool.items.toList]
    exact List.map_congr_left fun constant member => stored.canonical constant (Array.mem_toList_iff.mp member)
  have made : ofList pool.items.toList = .ok pool := ofList_eq_ok.mpr ⟨same.symm, stored⟩
  simp [toJson, ofJson, ofItems, asRecord_of_nodup, (list carries_constant).reads _ short, made]

theorem canonical_and_short_of_ofJson {json : Json} {pool : Pool} (read : ofJson json = .ok pool) :
    pool.Canonical ∧ Short pool.positions := by
  obtain ⟨members, -, read⟩ := bind_eq_ok.mp read
  obtain ⟨items, -, read⟩ := field_eq_ok.mp read
  obtain ⟨constants, known, read⟩ := bind_eq_ok.mp read
  split at read
  · cases read
    rename_i made
    obtain ⟨same, stored⟩ := ofList_eq_ok.mp made
    have short := short_flatMap.mp (short (list carries_constant) known)
    refine ⟨stored, ?_⟩
    rw [positions, same, List.flatMap_map, short_flatMap]
    exact fun constant member => short_canonical (short constant member)
  · cases read

end Pool

end Shader
