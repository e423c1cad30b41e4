import Shader.Proofs.Lowering.ExactTypes

/-!
Declared constants are the constants of the pool.

A constant of the pool is a tree of scalars, however it is stored. A constant that is well typed and was asked for is
declared so that its declaration, read back, is that tree: scalar by scalar, element by element, or as the null value
of its type.
-/
namespace Shader

open Binary List Instruction

/-- The elements of a constant that is not a scalar, in order. -/
def Constant.elements? : Constant → Option (List ConstId)
  | .scalar _ => none
  | .composite _ elements => some elements
  | .splat _ element count => some (.replicate count.toNat element)

/-- The types of the components of a composite type, in order. -/
def Module.parts? (m : Module) : Ty → Option (List Ty)
  | .vector elem width => some (.replicate width.toNat elem)
  | .matrix elem columns rows => some (.replicate columns.toNat (.vector elem rows))
  | .array elem (.constant count) _ => some (.replicate count.toNat elem)
  | .struct struct => (m.structDef struct).toOption.map fun definition => definition.members.map Member.ty
  | _ => none

/-- What is beside the same members of a list is related. -/
theorem forall₂_join {α β γ : Type} {R : α → β → Prop} {S : α → γ → Prop} {T : β → γ → Prop} {as : List α}
    {bs : List β} {cs : List γ} (first : Forall₂ R as bs) (second : Forall₂ S as cs)
    (join : ∀ a ∈ as, ∀ b c, R a b → S a c → T b c) : Forall₂ T bs cs := by
  induction first generalizing cs with
  | nil =>
    cases second
    exact .nil
  | cons here _ ih =>
    cases second with
    | cons there later =>
      exact .cons (join _ mem_cons_self _ _ here there)
        (ih later fun a member => join a (mem_cons_of_mem _ member))

namespace Pool

variable {tree : ValueTree}

/-- The constant stands for the value. -/
inductive Spells (pool : Pool) : ConstId → ValueTree → Prop
  | scalar {id : ConstId} {value : Scalar} (found : pool.get id = .ok (.scalar value)) : Spells pool id (.leaf value)
  | whole {id : ConstId} {stored : Constant} {elements : List ConstId} {trees : List ValueTree}
    (found : pool.get id = .ok stored) (held : stored.elements? = some elements)
    (length : elements.length = trees.length)
    (each : ∀ pair ∈ elements.zip trees, Spells pool pair.1 pair.2) : Spells pool id (.node trees)

/-- The constant has as many elements as its type has components, each of the type of its component as far as the
target can tell, and its elements are well typed. -/
inductive WellTyped (m : Module) (pool : Pool) : ConstId → Prop
  | scalar {id : ConstId} {value : Scalar} (found : pool.get id = .ok (.scalar value)) : WellTyped m pool id
  | whole {id : ConstId} {stored : Constant} {elements : List ConstId} {parts : List Ty}
    (found : pool.get id = .ok stored) (held : stored.elements? = some elements)
    (parted : m.parts? stored.ty = some parts)
    (fits : Forall₂ (fun element part => ∃ ty, pool.typeOf element = .ok ty ∧ ty.normal = part.normal)
      elements parts)
    (each : ∀ element ∈ elements, WellTyped m pool element) : WellTyped m pool id

variable {m : Module} {pool : Pool} {id : ConstId}

theorem WellTyped.spells (typed : WellTyped m pool id) : ∃ tree, pool.Spells id tree := by
  induction typed with
  | scalar found => exact ⟨_, .scalar found⟩
  | whole found held _ _ _ ih =>
    obtain ⟨trees, spelled⟩ := Module.exists_forall₂ ih
    obtain ⟨length, each⟩ := forall₂_iff_zip.mp spelled
    exact ⟨_, .whole found held length fun pair member => each member⟩

theorem Spells.trees {stored : Constant} {elements : List ConstId} (spells : pool.Spells id tree)
    (found : pool.get id = .ok stored) (held : stored.elements? = some elements) :
    ∃ trees, tree = .node trees ∧ Forall₂ pool.Spells elements trees := by
  cases spells with
  | scalar same =>
    cases found.symm.trans same
    cases held
  | whole same hold length each =>
    cases found.symm.trans same
    cases held.symm.trans hold
    exact ⟨_, rfl, forall₂_iff_zip.mpr ⟨length, fun {_ _} => each _⟩⟩

theorem Spells.value {value : Scalar} (spells : pool.Spells id tree)
    (found : pool.get id = .ok (.scalar value)) : tree = .leaf value := by
  cases spells with
  | scalar same =>
    cases found.symm.trans same
    rfl
  | whole same held =>
    cases found.symm.trans same
    cases held

theorem Spells.stored (spells : pool.Spells id tree) : ∃ stored, pool.get id = .ok stored := by
  cases spells with
  | scalar found => exact ⟨_, found⟩
  | whole found => exact ⟨_, found⟩

theorem Spells.unique {other : ValueTree} (spells : pool.Spells id tree) (spelled : pool.Spells id other) :
    other = tree := by
  induction spells generalizing other with
  | scalar found => exact spelled.value found
  | whole found held length _ ih =>
    obtain ⟨trees, rfl, others⟩ := spelled.trees found held
    have paired := forall₂_iff_zip.mpr ⟨length, fun {_ _} member => member⟩
    have agree := forall₂_join others paired fun _ _ _ _ spells member => ih _ member spells
    rw [forall₂_eq_eq_eq] at agree
    rw [agree]

/-- An element is where it is listed. -/
theorem element_eq_ok {stored : Constant} {elements : List ConstId} (found : pool.get id = .ok stored)
    (held : stored.elements? = some elements) (index : Nat) (bound : index < elements.length) :
    pool.element id index = .ok elements[index] := by
  rw [element, found]
  cases stored with
  | scalar value => cases held
  | composite ty listed =>
    cases held
    simp [getElem?_eq_getElem bound, pure, Except.pure]
  | splat ty element count =>
    cases held
    simp

theorem Zero.value {value : Scalar} (zero : pool.Zero id) (found : pool.get id = .ok (.scalar value)) :
    value.isZero = true := by
  cases zero with
  | scalar same zero =>
    cases found.symm.trans same
    exact zero
  | composite same | splat same => cases found.symm.trans same

theorem Zero.elements {stored : Constant} {elements : List ConstId} (zero : pool.Zero id)
    (found : pool.get id = .ok stored) (held : stored.elements? = some elements) :
    ∀ element ∈ elements, pool.Zero element := by
  cases zero with
  | scalar same =>
    cases found.symm.trans same
    cases held
  | composite same each =>
    cases found.symm.trans same
    cases held
    exact each
  | splat same each =>
    cases found.symm.trans same
    cases held
    exact fun element member => eq_of_mem_replicate member ▸ each

end Pool

namespace Lower

open LowerState

variable {ty : Ty} {parts : List Ty} {constant : ConstId} {stored : Constant} {tree : ValueTree}

theorem componentCount_of_parts {m : Module} (parted : m.parts? ty = some parts)
    (constant : ConstId) : componentCount m constant ty = .ok parts.length := by
  cases ty with
  | vector | matrix =>
    cases parted
    simp [componentCount, pure, Except.pure]
  | array elem count stride =>
    cases count with
    | runtime => cases parted
    | constant count =>
      cases parted
      simp [componentCount, pure, Except.pure]
  | struct struct =>
    obtain ⟨definition, defined, rfl⟩ := Option.map_eq_some_iff.mp parted
    simp [componentCount, Module.ok_of_mem_toOption defined]
  | _ => cases parted

variable {m : Module} {s : LowerState} {id typeWord : Word}

/-- The id reads as a value, of a type that is in the table. -/
def ReadsAs (s : LowerState) (id : Word) (ty : Ty) (tree : ValueTree) : Prop :=
  ∃ typeWord, (ty.normal, typeWord) ∈ s.types.entries ∧ s.meanings id = some (.constant typeWord tree)

theorem ReadsAs.value (reads : ReadsAs s id ty tree) : valueOf s.meanings id = some tree := by
  obtain ⟨typeWord, -, means⟩ := reads
  rw [valueOf, means]

section
variable {value : Scalar} (start : Interned m s)
include start

theorem meaning_of_type (entered : (ty, typeWord) ∈ s.types.entries) :
    ∃ inst, Describes m s typeWord ty inst ∧ s.meanings typeWord = inst.reading s.meanings := by
  obtain ⟨inst, declared, describes⟩ := (start.types _ entered).declared
  exact ⟨inst, describes, start.reads _ _ declared⟩

/-- How the type of a scalar reads. -/
def scalarReading : Scalar → Reading
  | .bool _ => .type (fun _ => none) (some (.leaf (.bool false)))
  | .i32 _ => .number fun word => .i32 word.toInt32
  | .u32 _ => .number .u32
  | .f32 _ => .number .f32
  | .f16 _ => .number fun word => .f16 word.toUInt16

theorem meaning_of_scalarType (entered : (value.ty, typeWord) ∈ s.types.entries) :
    s.meanings typeWord = some (scalarReading value) := by
  obtain ⟨inst, describes, means⟩ := meaning_of_type start entered
  rw [means]
  cases value
  all_goals
    cases describes with
    | image used => cases used
    | _ => rfl

theorem scalar_reads (entered : (value.ty, typeWord) ∈ s.types.entries) :
    (scalarDeclaration typeWord id value).reading s.meanings = some (.constant typeWord (.leaf value)) := by
  have means := meaning_of_scalarType start entered
  rcases value with (_ | _) | value | value | bits | bits
  all_goals simp [scalarDeclaration, reading, valueReading, truth, nullOf, literalOf, means,
    scalarReading, Reading.number]

theorem null_of_zero (entered : (value.ty, typeWord) ∈ s.types.entries)
    (zero : value.isZero = true) : nullOf s.meanings typeWord = some (.leaf value) := by
  rw [nullOf, meaning_of_scalarType start entered]
  rcases value with (_ | _) | value | value | bits | bits
  all_goals simp_all [scalarReading, Reading.number, Scalar.isZero]

theorem value_of_numeral {count : Word} (numeral : Numeral count id s) :
    valueOf s.meanings id = some (.leaf (.u32 count)) := by
  obtain ⟨ty, typed, declared⟩ := numeral
  have reads : (scalarDeclaration ty id (.u32 count)).reading s.meanings = _ := scalar_reads start typed
  rw [valueOf, (start.reads _ _ declared).trans reads]

omit start in
theorem hasType_replicate {part : Ty} (typed : HasType part id s) (count : Nat) :
    Forall₂ (fun part id => HasType part id s) (replicate count part) (replicate count id) := by
  induction count with
  | zero => exact .nil
  | succ count ih => exact .cons typed ih

/-- The null value of a composite type is made of the null values of the types of its components. -/
theorem null_of_parts (parted : m.parts? ty = some parts)
    (entered : (ty.normal, typeWord) ∈ s.types.entries) :
    ∃ ids, Forall₂ (fun part id => HasType part id s) parts ids ∧
      nullOf s.meanings typeWord = ValueTree.ofParts (ids.map (nullOf s.meanings)) := by
  obtain ⟨inst, describes, means⟩ := meaning_of_type start entered
  rw [nullOf, means]
  cases ty with
  | vector elem width =>
    cases parted
    cases describes with
    | image used => cases used
    | vector typed =>
      exact ⟨_, hasType_replicate typed _, by simp [reading, typeReading, Reading.composite]⟩
  | matrix elem columns rows =>
    cases parted
    cases describes with
    | image used => cases used
    | matrix typed =>
      exact ⟨_, hasType_replicate typed _, by simp [reading, typeReading, Reading.composite]⟩
  | array elem count stride =>
    cases count with
    | runtime => cases parted
    | constant count =>
      cases parted
      cases describes with
      | image used => cases used
      | array typed counted =>
        refine ⟨_, hasType_replicate (hasType_normal elem ▸ typed) _, ?_⟩
        simp [reading, typeReading, Reading.composite, value_of_numeral start counted]
  | struct struct =>
    obtain ⟨definition, defined, rfl⟩ := Option.map_eq_some_iff.mp parted
    cases describes with
    | image used => cases used
    | struct same typed =>
      cases (Module.ok_of_mem_toOption defined).symm.trans same
      refine ⟨_, forall₂_map_left_iff.mpr typed, ?_⟩
      simp [reading, typeReading, Reading.composite, filterMap_map, Function.comp_def,
        Operand.reference?]
  | _ => cases parted

/-- The null value of the type of a constant that is all zeros is the constant. -/
theorem null_reads (typed : s.pool.WellTyped m constant) (zero : s.pool.Zero constant)
    (spells : s.pool.Spells constant tree) (found : s.pool.get constant = .ok stored)
    (entered : (stored.ty.normal, typeWord) ∈ s.types.entries) :
    nullOf s.meanings typeWord = some tree := by
  induction typed generalizing stored tree typeWord with
  | scalar same =>
    cases found.symm.trans same
    rw [spells.value found]
    rw [Constant.ty, Scalar.normal_ty] at entered
    exact null_of_zero start entered (zero.value found)
  | @whole _ _ elements _ same held parted fits each ih =>
    cases found.symm.trans same
    obtain ⟨trees, rfl, spelled⟩ := spells.trees found held
    obtain ⟨ids, partTypes, null⟩ := null_of_parts start parted entered
    have elementTypes : Forall₂ (fun element id => ∃ stored, s.pool.get element = .ok stored ∧
        (stored.ty.normal, id) ∈ s.types.entries) elements ids := by
      refine forall₂_join fits.flip partTypes fun part _ element id fit entered => ?_
      obtain ⟨ty, typed, same⟩ := fit
      obtain ⟨stored, found, rfl⟩ := Pool.typeOf_eq_ok.mp typed
      exact ⟨stored, found, same ▸ entered⟩
    rw [null]
    refine ValueTree.ofParts_eq_some (forall₂_map_left_iff.mpr ?_)
    refine forall₂_join elementTypes spelled fun element member id tree typed spells => ?_
    obtain ⟨stored, found, entered⟩ := typed
    exact ih element member (zero.elements same held element member) spells found entered

theorem readsAs_scalar (typed : (value.ty, typeWord) ∈ s.types.entries)
    (declared : s.declarations id = [scalarDeclaration typeWord id value]) : ReadsAs s id value.ty (.leaf value) :=
  ⟨typeWord, (Scalar.normal_ty value).symm ▸ typed, (start.reads _ _ declared).trans (scalar_reads start typed)⟩

theorem readsAs_null (null : (ty.normal, id) ∈ s.nulls.entries)
    (value : ∀ {typeWord}, (ty.normal, typeWord) ∈ s.types.entries → nullOf s.meanings typeWord = some tree) :
    ReadsAs s id ty tree := by
  obtain ⟨typeWord, typed, declared⟩ := start.nulls _ null
  refine ⟨typeWord, typed, (start.reads _ _ declared).trans ?_⟩
  simp [reading, valueReading, value typed]

theorem readsAs_composite {ids : List Word} {trees : List ValueTree}
    (typed : (ty.normal, typeWord) ∈ s.types.entries)
    (declared : s.declarations id = [⟨.constantComposite, some typeWord, some id, ids.map .id⟩])
    (values : Forall₂ (fun id tree => valueOf s.meanings id = some tree) ids trees) :
    ReadsAs s id ty (.node trees) := by
  have whole := ValueTree.ofParts_eq_some (forall₂_map_left_iff.mpr values)
  refine ⟨typeWord, typed, (start.reads _ _ declared).trans ?_⟩
  simp [reading, valueReading, filterMap_map, Function.comp_def, Operand.reference?, whole]

/-- A constant in the table is declared so that it reads as what it stands for. -/
theorem constant_reads (typed : s.pool.WellTyped m constant) (spells : s.pool.Spells constant tree)
    (found : s.pool.get constant = .ok stored) (entered : (constant, id) ∈ s.constants.entries) :
    ReadsAs s id stored.ty tree := by
  induction typed generalizing stored tree id with
  | @scalar _ value same =>
    cases found.symm.trans same
    cases start.constants _ entered with
    | scalar again typed declared =>
      cases same.symm.trans again
      rw [spells.value found]
      exact readsAs_scalar start typed declared
    | null again whole =>
      cases same.symm.trans again
      cases value <;> cases whole
    | composite again _ typed counted =>
      cases same.symm.trans again
      cases value <;> cases counted
  | @whole constant _ elements _ same held parted fits each ih =>
    cases found.symm.trans same
    cases start.constants _ entered with
    | scalar again typed declared =>
      cases same.symm.trans again
      cases held
    | null again whole zero null =>
      cases same.symm.trans again
      exact readsAs_null start null (null_reads start (.whole same held parted fits each) zero spells found)
    | @composite _ _ picked _ again _ typed counted listed kept declared =>
      cases same.symm.trans again
      obtain ⟨trees, rfl, spelled⟩ := spells.trees found held
      have counts := Except.ok.inj (counted.symm.trans (componentCount_of_parts parted constant))
      have whole : picked = elements :=
        ext_getElem (counts.trans fits.length_eq.symm) fun index bound within =>
          Except.ok.inj ((listed index bound).symm.trans (Pool.element_eq_ok found held index within))
      subst whole
      refine readsAs_composite start typed declared ?_
      refine forall₂_join kept spelled fun element member id tree entered spells => ?_
      obtain ⟨stored, found⟩ := spells.stored
      exact (ih element member spells found entered).value

end

theorem constantId_of_find? (found : s.constants.find? constant = some id) :
    (constantId m constant).run s = .ok (id, s) := by
  simp only [constantId, StateT.run_bind, StateT.run_get, pure_bind, constantIdWithin]
  exact remember_of_find? found

/-- A well-typed constant whose id a lowering asked for stands for one tree of scalars. Read in order, the declarations
of the lowered module say that the id is this tree, of the type of the constant. -/
theorem constants_read_back {options : Options} {state : LowerState} {constant : ConstId} {id : Word}
    (ran : (emitModule m options).run { pool := m.constants } = .ok ((), state))
    (asked : (constantId m constant).run state = .ok (id, state)) (typed : state.pool.WellTyped m constant) :
    ∃ tree ty typeWord, (∀ other, state.pool.Spells constant other ↔ other = tree) ∧
      state.pool.typeOf constant = .ok ty ∧ Asked m state ty.normal typeWord ∧
      readings state.out.globals.toList id = some (.constant typeWord tree) := by
  obtain ⟨start, -⟩ := interned_of_run ran
  have entered := (settles_constantId constant state id state start trivial asked).2.2
  obtain ⟨tree, spells⟩ := typed.spells
  obtain ⟨stored, found⟩ := spells.stored
  obtain ⟨typeWord, typed, reads⟩ := constant_reads start typed spells found entered
  refine ⟨tree, stored.ty, typeWord, fun other => ⟨spells.unique, fun same => same ▸ spells⟩, ?_, ?_, reads⟩
  · exact Pool.typeOf_eq_ok.mpr ⟨stored, found, rfl⟩
  · exact (asked_iff start).mpr ((Ty.normal_normal stored.ty).symm ▸ typed)

/-- A pair of vectors: the first is all zeros, the second begins with the negative zero. -/
def signedZeros : Module where
  structs := #[⟨some "Pair", [⟨none, .vector .f32 2, 0⟩, ⟨none, .vector .f32 2, 8⟩], false⟩]
  constants := ⟨#[.scalar (.f32 0x80000000), .scalar (.f32 0), .splat (.vector .f32 2) ⟨1⟩ 2,
    .composite (.vector .f32 2) [⟨0⟩, ⟨1⟩], .composite (.struct ⟨0⟩) [⟨2⟩, ⟨3⟩]]⟩
  values := #[⟨.pointer .privateLocal (.struct ⟨0⟩) .readWrite, none, .result ⟨0⟩⟩]
  insts := #[⟨.var { initializer := some (.constant ⟨4⟩) }, [⟨0⟩], ⟨0⟩⟩]
  blocks := #[{ insts := [⟨0⟩] }]

theorem signedZeros_wellTyped : signedZeros.constants.WellTyped signedZeros ⟨4⟩ := by
  have negative : signedZeros.constants.WellTyped signedZeros ⟨0⟩ := .scalar rfl
  have zero : signedZeros.constants.WellTyped signedZeros ⟨1⟩ := .scalar rfl
  have zeros : signedZeros.constants.WellTyped signedZeros ⟨2⟩ :=
    .whole rfl rfl rfl (.cons ⟨_, rfl, rfl⟩ (.cons ⟨_, rfl, rfl⟩ .nil)) (by simp [zero])
  have mixed : signedZeros.constants.WellTyped signedZeros ⟨3⟩ :=
    .whole rfl rfl rfl (.cons ⟨_, rfl, rfl⟩ (.cons ⟨_, rfl, rfl⟩ .nil)) (by simp [negative, zero])
  exact .whole rfl rfl rfl (.cons ⟨_, rfl, rfl⟩ (.cons ⟨_, rfl, rfl⟩ .nil)) (by simp [zeros, mixed])

theorem signedZeros_spells : signedZeros.constants.Spells ⟨4⟩ (.node [.node [.leaf (.f32 0), .leaf (.f32 0)],
    .node [.leaf (.f32 0x80000000), .leaf (.f32 0)]]) := by
  have negative : signedZeros.constants.Spells ⟨0⟩ (.leaf (.f32 0x80000000)) := .scalar rfl
  have zero : signedZeros.constants.Spells ⟨1⟩ (.leaf (.f32 0)) := .scalar rfl
  have zeros : signedZeros.constants.Spells ⟨2⟩ (.node [.leaf (.f32 0), .leaf (.f32 0)]) :=
    .whole rfl rfl rfl (by simp [zero])
  have mixed : signedZeros.constants.Spells ⟨3⟩ (.node [.leaf (.f32 0x80000000), .leaf (.f32 0)]) :=
    .whole rfl rfl rfl (by simp [negative, zero])
  exact .whole rfl rfl rfl (by simp [zeros, mixed])

theorem signedZeros_read_back : ∃ state id typeWord,
    (emitModule signedZeros {}).run { pool := signedZeros.constants } = .ok ((), state) ∧
      (constantId signedZeros ⟨4⟩).run state = .ok (id, state) ∧
      Asked signedZeros state (.struct ⟨0⟩) typeWord ∧
      readings state.out.globals.toList id = some (.constant typeWord
        (.node [.node [.leaf (.f32 0), .leaf (.f32 0)], .node [.leaf (.f32 0x80000000), .leaf (.f32 0)]])) := by
  obtain ⟨⟨⟨⟩, state⟩, ran, pool, found⟩ : ∃ result,
      (emitModule signedZeros {}).run { pool := signedZeros.constants } = .ok result ∧
        result.2.pool = signedZeros.constants ∧ result.2.constants.find? ⟨4⟩ = some 6 := by
    decide +kernel
  have asked : (constantId signedZeros ⟨4⟩).run state = .ok (6, state) := constantId_of_find? found
  obtain ⟨tree, ty, typeWord, spelled, typed, ofType, reads⟩ :=
    constants_read_back ran asked (pool ▸ signedZeros_wellTyped)
  rw [pool] at spelled typed
  cases typed
  cases (spelled _).mp signedZeros_spells
  exact ⟨state, 6, typeWord, ran, asked, ofType, reads⟩

end Lower
end Shader
