import Shader.Proofs.Lowering.Readings

/-!
Each type has one declaration, and the declaration says what the type is.

`Interned` is what holds between any two steps of a lowering: the table of types gives every type in it an id of its
own, whose declaration describes the type, and the tables of constants do so for constants. `Leads` is what stays
from one state to a later one. While a type is being declared its id is open: it is taken, and its declaration
follows those of the types it is made of. `Settles` says what a step makes of both.
-/
namespace Shader.Binary

/-- Instructions that declare a type of values. -/
def Opcode.isType : Opcode → Bool
  | .typeVoid | .typeBool | .typeInt | .typeFloat | .typeVector | .typeMatrix | .typeImage | .typeSampler
  | .typeSampledImage | .typeArray | .typeRuntimeArray | .typeStruct | .typePointer => true
  | _ => false

/-- Whether the instruction says how far apart the elements of an array are, or where a member of a struct is. -/
def Instruction.laysOut (id : Word) (inst : Instruction) : Bool :=
  match inst.op, inst.operands with
  | .decorate, .id target :: .literal kind :: _ => target = id && kind = Decoration.arrayStride
  | .memberDecorate, .id target :: _ :: .literal kind :: _ => target = id && kind = Decoration.offset
  | _, _ => false

end Shader.Binary

namespace Shader

open Binary List Instruction Lower

variable {s t : LowerState} {id : Word} {constant : ConstId} {pool larger : Pool}
variable {before : List Instruction}

theorem Ty.normal_normal (ty : Ty) : ty.normal.normal = ty.normal := by
  induction ty with
  | array elem count stride ih | pointer space store access ih | sampledImage image ih => simp [normal, ih]
  | atomic inner ih => exact ih
  | _ => rfl

/-- How a type in normal form is used as an image, with the dimension and the type of its texels. -/
def Ty.image? : Ty → Option (ImageUse × TextureDim × Ty)
  | .sampledTexture dim sampled => some (.sampled, dim, sampled)
  | .multisampledTexture dim sampled => some (.multisampled, dim, sampled)
  | .storageTexture dim format _ sampled => some (.storage format, dim, sampled)
  | .inputAttachment sampled => some (.attachment, .d2, sampled)
  | _ => none

/-- The format word of an image. -/
def Lower.ImageUse.formatWord : Lower.ImageUse → Except Fault Word
  | .storage format => imageFormat format
  | _ => .ok ImageFormat.unknown

namespace Module

/-- The types that the declaration of a type in normal form is made of. The length of an array is a constant, which
has a type as well. -/
def components (m : Module) : Ty → List Ty
  | .vector elem _ => [elem]
  | .matrix elem _ rows => [.vector elem rows]
  | .array elem (.constant _) _ => [elem, .u32]
  | .array elem .runtime _ => [elem]
  | .pointer _ store _ => [store]
  | .struct struct =>
    match m.structDef struct with
    | .ok definition => definition.members.map Member.ty
    | .error _ => []
  | .sampledImage image => [image]
  | ty => ty.image?.toList.map fun image => image.2.2

/-- The declaration of a type needs that of the other. -/
def Component (m : Module) (part ty : Ty) : Prop := ∃ component ∈ m.components ty, component.normal = part

/-- The decoration that says where a member of a struct is. -/
def memberOffset (id : Word) (member : Member × Nat) : Instruction :=
  ⟨.memberDecorate, none, none,
    [.id id, .literal (UInt32.ofNat member.2), .literal Decoration.offset, .literal member.1.offset]⟩

/-- The decorations that say where the parts of values of a type are. -/
def layout (m : Module) (id : Word) : Ty → List Instruction
  | .array _ _ stride => [⟨.decorate, none, none, [.id id, .literal Decoration.arrayStride, .literal stride]⟩]
  | .struct struct =>
    match m.structDef struct with
    | .ok definition => definition.members.zipIdx.map (memberOffset id)
    | .error _ => []
  | _ => []

end Module

namespace LowerState

/-- The declarations of an id. -/
def declarations (s : LowerState) (id : Word) : List Instruction :=
  s.out.globals.toList.filter fun inst => inst.target? = some id

/-- The decorations that lay out a type. -/
def marks (s : LowerState) (id : Word) : List Instruction :=
  s.out.annotations.toList.filter (laysOut id)

/-- What the ids declared so far mean. -/
def meanings (s : LowerState) : Word → Option Reading := readings s.out.globals.toList

/-- The id is handed out. -/
def Taken (s : LowerState) (id : Word) : Prop := id.toNat < s.out.ids.next.toNat

/-- The id is that of a number. -/
def Numeral (count id : Word) (s : LowerState) : Prop :=
  ∃ ty, HasType .u32 ty s ∧ s.declarations id = [⟨.constant, some ty, some id, [.literal count]⟩]

/-- The instruction declares the type in normal form, with the ids of the types it is made of. -/
inductive Describes (m : Module) (s : LowerState) (id : Word) : Ty → Instruction → Prop
  | void : Describes m s id .void ⟨.typeVoid, none, some id, []⟩
  | bool : Describes m s id .bool ⟨.typeBool, none, some id, []⟩
  | i32 : Describes m s id .i32 ⟨.typeInt, none, some id, [.literal 32, .literal 1]⟩
  | u32 : Describes m s id .u32 ⟨.typeInt, none, some id, [.literal 32, .literal 0]⟩
  | f32 : Describes m s id .f32 ⟨.typeFloat, none, some id, [.literal 32]⟩
  | f16 : Describes m s id .f16 ⟨.typeFloat, none, some id, [.literal 16]⟩
  | vector {elem : Ty} {width part : Word} (elemType : HasType elem part s) :
    Describes m s id (.vector elem width) ⟨.typeVector, none, some id, [.id part, .literal width]⟩
  | matrix {elem : Ty} {columns rows part : Word} (columnType : HasType (.vector elem rows) part s) :
    Describes m s id (.matrix elem columns rows) ⟨.typeMatrix, none, some id, [.id part, .literal columns]⟩
  | array {elem : Ty} {count stride part length : Word} (elemType : HasType elem part s)
    (counted : Numeral count length s) :
    Describes m s id (.array elem (.constant count) stride) ⟨.typeArray, none, some id, [.id part, .id length]⟩
  | runtimeArray {elem : Ty} {stride part : Word} (elemType : HasType elem part s) :
    Describes m s id (.array elem .runtime stride) ⟨.typeRuntimeArray, none, some id, [.id part]⟩
  | pointer {space : AddressSpace} {store : Ty} {access : Access} {storage part : Word}
    (storeType : HasType store part s) (stored : storageClass space = .ok storage) :
    Describes m s id (.pointer space store access) ⟨.typePointer, none, some id, [.literal storage, .id part]⟩
  | struct {struct : StructId} {definition : StructDef} {parts : List Word}
    (defined : m.structDef struct = .ok definition)
    (memberTypes : Forall₂ (fun member part => HasType member.ty part s) definition.members parts) :
    Describes m s id (.struct struct) ⟨.typeStruct, none, some id, parts.map .id⟩
  | sampler : Describes m s id (.sampler .sampler) ⟨.typeSampler, none, some id, []⟩
  | image {ty : Ty} {use : ImageUse} {dim : TextureDim} {sampled : Ty} {part dimWord format : Word}
    (used : ty.image? = some (use, dim, sampled)) (sampledType : HasType sampled part s)
    (shaped : use.dim dim = .ok dimWord) (formatted : use.formatWord = .ok format) :
    Describes m s id ty ⟨.typeImage, none, some id,
      [.id part, .literal dimWord, .literal 0, .literal (if dim.isArrayed then 1 else 0),
        .literal use.multisampledWord, .literal use.sampledWord, .literal format]⟩
  | sampledImage {image : Ty} {part : Word} (imageType : HasType image part s) :
    Describes m s id (.sampledImage image) ⟨.typeSampledImage, none, some id, [.id part]⟩

/-- The id is that of the type in normal form. -/
structure TypeAt (m : Module) (s : LowerState) (ty : Ty) (id : Word) : Prop where
  normal : ty.normal = ty
  taken : s.Taken id
  grounded : Acc m.Component ty
  declared : ∃ inst, s.declarations id = [inst] ∧ Describes m s id ty inst
  laidOut : s.marks id = m.layout id ty

/-- The id is that of the null value of a type. -/
def NullAt (s : LowerState) (ty : Ty) (id : Word) : Prop :=
  ∃ typeWord, (ty, typeWord) ∈ s.types.entries ∧ s.declarations id = [⟨.constantNull, some typeWord, some id, []⟩]

end LowerState

/-- All scalars that a constant is built from are zero. -/
inductive Pool.Zero (pool : Pool) : ConstId → Prop
  | scalar {id : ConstId} {value : Scalar} (found : pool.get id = .ok (.scalar value))
    (zero : value.isZero = true) : Zero pool id
  | composite {id : ConstId} {ty : Ty} {elements : List ConstId}
    (found : pool.get id = .ok (.composite ty elements)) (zero : ∀ element ∈ elements, Zero pool element) :
    Zero pool id
  | splat {id element : ConstId} {ty : Ty} {count : UInt32} (found : pool.get id = .ok (.splat ty element count))
    (zero : Zero pool element) : Zero pool id

/-- Some scalar that a constant is built from is not zero. -/
inductive Pool.Nonzero (pool : Pool) : ConstId → Prop
  | scalar {id : ConstId} {value : Scalar} (found : pool.get id = .ok (.scalar value))
    (nonzero : value.isZero = false) : Nonzero pool id
  | composite {id element : ConstId} {ty : Ty} {elements : List ConstId}
    (found : pool.get id = .ok (.composite ty elements)) (member : element ∈ elements)
    (nonzero : Nonzero pool element) : Nonzero pool id
  | splat {id element : ConstId} {ty : Ty} {count : UInt32} (found : pool.get id = .ok (.splat ty element count))
    (nonzero : Nonzero pool element) : Nonzero pool id

/-- The declaration of a scalar constant. -/
def Lower.scalarDeclaration (typeWord id : Word) : Scalar → Instruction
  | .bool true => ⟨.constantTrue, some typeWord, some id, []⟩
  | .bool false => ⟨.constantFalse, some typeWord, some id, []⟩
  | .i32 value => ⟨.constant, some typeWord, some id, [.literal value.toUInt32]⟩
  | .u32 value => ⟨.constant, some typeWord, some id, [.literal value]⟩
  | .f32 bits => ⟨.constant, some typeWord, some id, [.literal bits]⟩
  | .f16 bits => ⟨.constant, some typeWord, some id, [.literal bits.toUInt32]⟩

namespace LowerState

/-- The id is that of the constant. -/
inductive ConstantAt (m : Module) (s : LowerState) (constant : ConstId) (id : Word) : Prop
  | scalar {value : Scalar} {typeWord : Word} (found : s.pool.get constant = .ok (.scalar value))
    (typed : (value.ty, typeWord) ∈ s.types.entries)
    (declared : s.declarations id = [scalarDeclaration typeWord id value]) : ConstantAt m s constant id
  | null {stored : Constant} (found : s.pool.get constant = .ok stored) (whole : stored.ty.isScalar = false)
    (zero : s.pool.Zero constant) (null : (stored.ty.normal, id) ∈ s.nulls.entries) : ConstantAt m s constant id
  | composite {stored : Constant} {typeWord : Word} {elements : List ConstId} {ids : List Word}
    (found : s.pool.get constant = .ok stored) (nonzero : s.pool.Nonzero constant)
    (typed : (stored.ty.normal, typeWord) ∈ s.types.entries)
    (counted : componentCount m constant stored.ty = .ok elements.length)
    (picked : ∀ index (bound : index < elements.length), s.pool.element constant index = .ok elements[index])
    (held : Forall₂ (fun element id => (element, id) ∈ s.constants.entries) elements ids)
    (declared : s.declarations id = [⟨.constantComposite, some typeWord, some id, ids.map .id⟩]) :
    ConstantAt m s constant id

/-- Everything that is declared has an id. -/
def Named (s : LowerState) : Prop := ∀ inst ∈ s.out.globals.toList, inst.result ≠ none

/-- The tables hold what has one declaration that says what it is, and all declarations mean what they say. Constants
share an id only where it is that of a null value. -/
structure Interned (m : Module) (s : LowerState) : Prop where
  blank : ∀ id, ¬s.Taken id → s.declarations id = [] ∧ s.marks id = []
  closed : ∀ id, ∀ inst ∈ s.declarations id, ∀ ref ∈ inst.references, s.declarations ref ≠ []
  ordered : InOrder s.out.globals.toList
  reads : ∀ id inst, s.declarations id = [inst] → s.meanings id = inst.reading s.meanings
  types : ∀ entry ∈ s.types.entries, TypeAt m s entry.1 entry.2
  constants : ∀ entry ∈ s.constants.entries, ConstantAt m s entry.1 entry.2
  nulls : ∀ entry ∈ s.nulls.entries, NullAt s entry.1 entry.2
  apart : ∀ first ∈ s.constants.entries, ∀ second ∈ s.constants.entries, first.2 = second.2 →
    first.1 = second.1 ∨ ∃ ty, (ty, first.2) ∈ s.nulls.entries
  keys : (s.types.entries.map Prod.fst).Nodup
  ids : (s.types.entries.map Prod.snd).Nodup
  named : s.Named
  bare : ∀ entry ∈ s.nulls.entries, entry.1.pointee? = none

/-- What is in the tables of a state, and what it declares, is so in a later one. -/
structure Extends (s t : LowerState) : Prop where
  next : s.out.ids.next.toNat ≤ t.out.ids.next.toNat
  pool : s.pool.Within t.pool
  types : s.types.entries ⊆ t.types.entries
  constants : s.constants.entries ⊆ t.constants.entries
  nulls : s.nulls.entries ⊆ t.nulls.entries
  kept : ∀ id, s.declarations id ≠ [] → t.declarations id = s.declarations id

theorem Extends.taken (extended : s.Extends t) (taken : s.Taken id) : t.Taken id :=
  Nat.lt_of_lt_of_le taken extended.next

theorem Extends.declared (extended : s.Extends t) {inst : Instruction} (declared : s.declarations id = [inst]) :
    t.declarations id = [inst] :=
  (extended.kept id (by simp [declared])).trans declared

theorem Numeral.keep (extended : s.Extends t) {count : Word} (numeral : Numeral count id s) : Numeral count id t := by
  obtain ⟨ty, typed, declared⟩ := numeral
  exact ⟨ty, extended.types typed, extended.declared declared⟩

/-- From one state to a later one, no id changes its declarations but those that are `opened`. The types that are new
have new ids and are among `keys`. -/
structure Leads (opened : List Word) (keys : Ty → Prop) (s t : LowerState) : Prop extends Extends s t where
  spared : ∀ id, s.Taken id → id ∉ opened → t.declarations id = s.declarations id ∧ t.marks id = s.marks id
  entered : ∀ entry ∈ t.types.entries, entry ∈ s.types.entries ∨ ¬s.Taken entry.2 ∧ keys entry.1
  added : ∀ id, ¬s.Taken id → id ∉ opened → ∀ inst ∈ t.declarations id, inst.op.isType = true →
    ∃ ty, (ty, id) ∈ t.types.entries

namespace Leads

variable {opened : List Word} {keys : Ty → Prop} {s t u : LowerState}

theorem mono {more : List Word} {others : Ty → Prop} (leads : Leads opened keys s t) (within : opened ⊆ more)
    (under : ∀ ty, keys ty → others ty) : Leads more others s t where
  toExtends := leads.toExtends
  spared id taken other := leads.spared id taken fun member => other (within member)
  entered entry member := (leads.entered entry member).imp_right fun fresh => ⟨fresh.1, under _ fresh.2⟩
  added id untaken other := leads.added id untaken fun member => other (within member)

theorem trans (first : Leads opened keys s t) (second : Leads opened keys t u) : Leads opened keys s u where
  next := first.next.trans second.next
  pool := first.pool.trans second.pool
  types _ member := second.types (first.types member)
  constants _ member := second.constants (first.constants member)
  nulls _ member := second.nulls (first.nulls member)
  kept id declared := by
    have early := first.kept id declared
    rw [second.kept id (early ▸ declared), early]
  spared id taken other := by
    obtain ⟨early, marked⟩ := first.spared id taken other
    obtain ⟨late, kept⟩ := second.spared id (first.taken taken) other
    exact ⟨late.trans early, kept.trans marked⟩
  entered entry member := by
    rcases second.entered entry member with early | ⟨untaken, late⟩
    · exact first.entered entry early
    · exact .inr ⟨fun taken => untaken (first.taken taken), late⟩
  added id untaken other inst member declares := by
    by_cases between : t.Taken id
    · rw [(second.spared id between other).1] at member
      obtain ⟨ty, entered⟩ := first.added id untaken other inst member declares
      exact ⟨ty, second.types entered⟩
    · exact second.added id between other inst member declares

/-- An id that is taken and is not that of a type does not become one. -/
theorem absent (leads : Leads opened keys s t) (taken : s.Taken id) (absent : ∀ entry ∈ s.types.entries, entry.2 ≠ id) :
    ∀ entry ∈ t.types.entries, entry.2 ≠ id := by
  rintro entry member rfl
  rcases leads.entered entry member with early | ⟨untaken, -⟩
  · exact absent entry early rfl
  · exact untaken taken

end Leads

/-- A fact that stays, as long as no other ids are open. -/
class Lasting (opened : List Word) (fact : LowerState → Prop) : Prop where
  keep : ∀ {keys s t}, Leads opened keys s t → fact s → fact t

section
variable {opened : List Word} {id : Word}

instance {fact other : LowerState → Prop} [first : Lasting opened fact]
    [second : Lasting opened other] : Lasting opened fun s => fact s ∧ other s :=
  ⟨fun leads held => ⟨first.keep leads held.1, second.keep leads held.2⟩⟩

instance {fact : Prop} : Lasting opened fun _ => fact := ⟨fun _ held => held⟩

instance lasting_typed {ty : Ty} : Lasting opened fun s => (ty, id) ∈ s.types.entries :=
  ⟨fun leads held => leads.types held⟩

instance {ty : Ty} : Lasting opened (HasType ty id) := lasting_typed

instance {α β : Type} {as : List α} {bs : List β} {related : α → β → LowerState → Prop}
    [each : ∀ a b, Lasting opened (related a b)] :
    Lasting opened fun s => Forall₂ (fun a b => related a b s) as bs :=
  ⟨fun leads held => held.imp fun a b => (each a b).keep leads⟩

instance : Lasting opened fun s => s.declarations id ≠ [] :=
  ⟨fun leads held => by rwa [leads.kept id held]⟩

instance {count : Word} : Lasting opened (Numeral count id) :=
  ⟨fun leads held => held.keep leads.toExtends⟩

instance : Lasting opened fun s => (constant, id) ∈ s.constants.entries :=
  ⟨fun leads held => leads.constants held⟩

instance {stored : Constant} : Lasting opened fun s => s.pool.get constant = .ok stored :=
  ⟨fun leads held => leads.pool _ _ held⟩

/-- The id is taken and is not that of a type. -/
def Reserved (id : Word) (s : LowerState) : Prop := s.Taken id ∧ ∀ entry ∈ s.types.entries, entry.2 ≠ id

instance lasting_reserved : Lasting opened (Reserved id) :=
  ⟨fun leads held => ⟨leads.taken held.1, leads.absent held.1 held.2⟩⟩

/-- An id that is open: nothing is declared of it yet, apart from where the parts of a type are. -/
structure Pending (id : Word) (before : List Instruction) (s : LowerState) : Prop where
  reserved : s.Reserved id
  declarations : s.declarations id = []
  marks : s.marks id = before

instance : Lasting [] (Pending id before) := by
  refine ⟨fun {_ s t} leads pending => ?_⟩
  obtain ⟨declarations, marks⟩ := leads.spared id pending.reserved.1 not_mem_nil
  exact ⟨lasting_reserved.keep leads pending.reserved, declarations.trans pending.declarations,
    marks.trans pending.marks⟩

end
end LowerState

theorem Pool.Zero.keep (within : pool.Within larger) {id : ConstId} (zero : pool.Zero id) : larger.Zero id := by
  induction zero with
  | scalar found zero => exact .scalar (within _ _ found) zero
  | composite found _ ih => exact .composite (within _ _ found) ih
  | splat found _ ih => exact .splat (within _ _ found) ih

theorem Pool.Nonzero.keep (within : pool.Within larger) {id : ConstId} (nonzero : pool.Nonzero id) :
    larger.Nonzero id := by
  induction nonzero with
  | scalar found nonzero => exact .scalar (within _ _ found) nonzero
  | composite found member _ ih => exact .composite (within _ _ found) member ih
  | splat found _ ih => exact .splat (within _ _ found) ih

theorem Pool.element_keep (within : pool.Within larger) {id element : ConstId} {index : Nat}
    (picked : pool.element id index = .ok element) : larger.element id index = .ok element := by
  obtain ⟨stored, found, rest⟩ := bind_eq_ok.mp picked
  exact bind_eq_ok.mpr ⟨stored, within _ _ found, rest⟩

namespace LowerState

variable {m : Module} {opened : List Word} {keys : Ty → Prop} {s t : LowerState} {ty : Ty} {id : Word}
  {inst : Instruction}

theorem Describes.keep (extended : s.Extends t) (describes : Describes m s id ty inst) : Describes m t id ty inst := by
  cases describes with
  | void => exact .void
  | bool => exact .bool
  | i32 => exact .i32
  | u32 => exact .u32
  | f32 => exact .f32
  | f16 => exact .f16
  | vector typed => exact .vector (extended.types typed)
  | matrix typed => exact .matrix (extended.types typed)
  | array typed counted => exact .array (extended.types typed) (counted.keep extended)
  | runtimeArray typed => exact .runtimeArray (extended.types typed)
  | pointer typed stored => exact .pointer (extended.types typed) stored
  | struct defined typed => exact .struct defined (typed.imp fun _ _ held => extended.types held)
  | sampler => exact .sampler
  | image used typed shaped formatted => exact .image used (extended.types typed) shaped formatted
  | sampledImage typed => exact .sampledImage (extended.types typed)

theorem TypeAt.keep (extended : s.Extends t) (marks : t.marks id = s.marks id) (held : TypeAt m s ty id) :
    TypeAt m t ty id := by
  obtain ⟨inst, declared, describes⟩ := held.declared
  exact ⟨held.normal, extended.taken held.taken, held.grounded,
    ⟨inst, extended.declared declared, describes.keep extended⟩, marks.trans held.laidOut⟩

theorem NullAt.keep (extended : s.Extends t) (held : NullAt s ty id) : NullAt t ty id := by
  obtain ⟨typeWord, typed, declared⟩ := held
  exact ⟨typeWord, extended.types typed, extended.declared declared⟩

theorem ConstantAt.keep (extended : s.Extends t) (held : ConstantAt m s constant id) : ConstantAt m t constant id := by
  cases held with
  | scalar found typed declared =>
    exact .scalar (extended.pool _ _ found) (extended.types typed) (extended.declared declared)
  | null found whole zero null =>
    exact .null (extended.pool _ _ found) whole (zero.keep extended.pool) (extended.nulls null)
  | composite found nonzero typed counted picked held declared =>
    exact .composite (extended.pool _ _ found) (nonzero.keep extended.pool) (extended.types typed) counted
      (fun index bound => Pool.element_keep extended.pool (picked index bound))
      (held.imp fun _ _ member => extended.constants member) (extended.declared declared)

/-- A step that leaves the tables as they are. -/
theorem Interned.carry (start : Interned m s) (extended : s.Extends t) (types : t.types = s.types)
    (constants : t.constants = s.constants) (nulls : t.nulls = s.nulls)
    (marks : ∀ entry ∈ s.types.entries, t.marks entry.2 = s.marks entry.2)
    (blank : ∀ id, ¬t.Taken id → t.declarations id = [] ∧ t.marks id = [])
    (closed : ∀ id, ∀ inst ∈ t.declarations id, ∀ ref ∈ inst.references, t.declarations ref ≠ [])
    (ordered : InOrder t.out.globals.toList)
    (reads : ∀ id inst, t.declarations id = [inst] → t.meanings id = inst.reading t.meanings) (named : t.Named) :
    Interned m t where
  blank := blank
  closed := closed
  ordered := ordered
  reads := reads
  types entry member := by
    rw [types] at member
    exact (start.types entry member).keep extended (marks entry member)
  constants entry member := (start.constants entry (constants ▸ member)).keep extended
  nulls entry member := (start.nulls entry (nulls ▸ member)).keep extended
  apart := by
    rw [constants, nulls]
    exact start.apart
  keys := types ▸ start.keys
  ids := types ▸ start.ids
  named := named
  bare := nulls ▸ start.bare

/-- The states have the same declarations, and the later one has `extra` more decorations that lay out a type. -/
structure Alike (id : Word) (extra : List Instruction) (s t : LowerState) : Prop where
  next : s.out.ids.next.toNat ≤ t.out.ids.next.toNat
  pool : s.pool.Within t.pool
  types : t.types = s.types
  constants : t.constants = s.constants
  nulls : t.nulls = s.nulls
  declarations : t.declarations = s.declarations
  meanings : t.meanings = s.meanings
  named : s.Named → t.Named
  ordered : InOrder s.out.globals.toList → InOrder t.out.globals.toList
  marks : t.marks id = s.marks id ++ extra
  others : ∀ other, other ≠ id → t.marks other = s.marks other

namespace Alike

variable {extra : List Instruction}

theorem of_same (same : s.SameDeclarations t) : Alike id [] s t where
  next := same.next
  pool := same.pool
  types := same.types
  constants := same.constants
  nulls := same.nulls
  declarations := by
    funext id
    rw [LowerState.declarations, LowerState.declarations, same.globals]
  meanings := by rw [LowerState.meanings, LowerState.meanings, same.globals]
  named named := by rwa [Named, same.globals]
  ordered ordered := by rwa [same.globals]
  marks := by rw [LowerState.marks, LowerState.marks, same.annotations, append_nil]
  others _ _ := by rw [LowerState.marks, LowerState.marks, same.annotations]

theorem trans {u : LowerState} {more : List Instruction} (first : Alike id extra s t)
    (second : Alike id more t u) : Alike id (extra ++ more) s u where
  next := first.next.trans second.next
  pool := first.pool.trans second.pool
  types := second.types.trans first.types
  constants := second.constants.trans first.constants
  nulls := second.nulls.trans first.nulls
  declarations := second.declarations.trans first.declarations
  meanings := second.meanings.trans first.meanings
  named named := second.named (first.named named)
  ordered ordered := second.ordered (first.ordered ordered)
  marks := by rw [second.marks, first.marks, append_assoc]
  others other different := (second.others other different).trans (first.others other different)

theorem marks_eq (alike : Alike id [] s t) : t.marks = s.marks := by
  funext other
  by_cases same : other = id
  · rw [same, alike.marks, append_nil]
  · exact alike.others other same

theorem leads_of_spared (alike : Alike id extra s t)
    (marks : ∀ id, s.Taken id → id ∉ opened → t.marks id = s.marks id) (start : Interned m s) :
    Leads opened keys s t where
  next := alike.next
  pool := alike.pool
  types := by simp [alike.types]
  constants := by simp [alike.constants]
  nulls := by simp [alike.nulls]
  kept _ _ := by rw [alike.declarations]
  spared id taken other := ⟨by rw [alike.declarations], marks id taken other⟩
  entered _ member := .inl (alike.types ▸ member)
  added id untaken _ inst member := by
    rw [alike.declarations, (start.blank id untaken).1] at member
    cases member

/-- Decorations of an open id. -/
theorem leads (alike : Alike id extra s t) (start : Interned m s) : Leads [id] keys s t :=
  alike.leads_of_spared (fun other _ different => alike.others other (by simpa using different)) start

/-- No decorations that lay out a type. -/
theorem leads_nil (alike : Alike id [] s t) (start : Interned m s) : Leads opened keys s t :=
  alike.leads_of_spared (fun _ _ _ => by rw [alike.marks_eq]) start

theorem interned_of_spared (alike : Alike id extra s t) (start : Interned m s)
    (spared : ∀ other, ¬s.Taken other ∨ (∃ ty, (ty, other) ∈ s.types.entries) → t.marks other = s.marks other) :
    Interned m t := by
  have leads : Leads [id] (fun _ => True) s t := alike.leads start
  refine start.carry leads.toExtends alike.types alike.constants alike.nulls
    (fun entry member => spared _ (.inr ⟨_, member⟩)) (fun other untaken => ?_) ?_ (alike.ordered start.ordered) ?_
    (alike.named start.named)
  · have early : ¬s.Taken other := fun taken => untaken (leads.taken taken)
    rw [alike.declarations, spared other (.inl early)]
    exact start.blank other early
  · rw [alike.declarations]
    exact start.closed
  · rw [alike.declarations, alike.meanings]
    exact start.reads

theorem interned (alike : Alike id extra s t) (start : Interned m s) (taken : s.Taken id)
    (absent : ∀ entry ∈ s.types.entries, entry.2 ≠ id) : Interned m t := by
  refine alike.interned_of_spared start fun other spared => alike.others other ?_
  rintro rfl
  rcases spared with untaken | ⟨ty, entered⟩
  · exact untaken taken
  · exact absent _ entered rfl

theorem interned_nil (alike : Alike id [] s t) (start : Interned m s) : Interned m t :=
  alike.interned_of_spared start fun _ _ => by rw [alike.marks_eq]

end Alike

theorem declarations_push (s : LowerState) (inst : Instruction) (id : Word) :
    ({ s with out := s.out.append .globals inst } : LowerState).declarations id =
      s.declarations id ++ if inst.target? = some id then [inst] else [] := by
  simp only [declarations, Assembly.append, Array.toList_push, filter_append]
  congr 1
  simp [filter_cons]

theorem meanings_push (s : LowerState) (inst : Instruction) :
    ({ s with out := s.out.append .globals inst } : LowerState).meanings = readNext s.meanings inst := by
  rw [meanings, meanings, ← readings_push]
  simp [Assembly.append]

theorem defined_of_declarations (declared : s.declarations id ≠ []) : id ∈ defined s.out.globals.toList := by
  obtain ⟨inst, member⟩ := exists_mem_of_ne_nil _ declared
  obtain ⟨listed, target⟩ := mem_filter.mp member
  exact mem_filterMap.mpr ⟨inst, listed, result_of_target (of_decide_eq_true target)⟩

/-- Declarations stay in order if what the next one refers to is declared. -/
theorem inOrder_append (ordered : InOrder s.out.globals.toList)
    (refers : ∀ ref ∈ inst.references, s.declarations ref ≠ []) :
    InOrder (s.out.append .globals inst).globals.toList := by
  have pushed := ordered.push fun ref member => defined_of_declarations (refers ref member)
  simpa [Assembly.append] using pushed

/-- The declaration of an open id. -/
theorem Pending.declared (pending : s.Pending id before) (start : Interned m s) (target : inst.target? = some id)
    (refers : ∀ ref ∈ inst.references, s.declarations ref ≠ [])
    (pushed : t = { s with out := s.out.append .globals inst }) :
    Interned m t ∧ Leads [id] keys s t ∧ t.declarations id = [inst] ∧ t.marks id = before := by
  have declarations (other : Word) :
      t.declarations other = s.declarations other ++ if id = other then [inst] else [] := by
    simp only [pushed, declarations_push, target, Option.some_inj]
  have apart (ref : Word) (declared : s.declarations ref ≠ []) : ref ≠ id := by
    rintro rfl
    exact declared pending.declarations
  have kept (ref : Word) (different : ref ≠ id) : t.declarations ref = s.declarations ref := by
    rw [declarations, if_neg different.symm, append_nil]
  have meanings : t.meanings = Function.update s.meanings id (inst.reading s.meanings) := by
    rw [pushed, meanings_push, readNext, target]
  have reading (other : Instruction) (refers : ∀ ref ∈ other.references, s.declarations ref ≠ []) :
      other.reading t.meanings = other.reading s.meanings := by
    refine reading_congr fun ref member => ?_
    rw [meanings, Function.update_of_ne (apart ref (refers ref member))]
  have here : t.declarations id = [inst] := by
    rw [declarations, pending.declarations, if_pos rfl, nil_append]
  have marks : t.marks = s.marks := by rw [pushed]; rfl
  have same : t.types = s.types ∧ t.constants = s.constants ∧ t.nulls = s.nulls ∧ t.pool = s.pool ∧
      t.out.ids = s.out.ids := by
    rw [pushed]
    exact ⟨rfl, rfl, rfl, rfl, rfl⟩
  obtain ⟨types, constants, nulls, pool, ids⟩ := same
  have extended : s.Extends t :=
    { next := by rw [ids]
      pool := pool ▸ .refl _
      types := by simp [types]
      constants := by simp [constants]
      nulls := by simp [nulls]
      kept := fun ref declared => kept ref (apart ref declared) }
  have leads : Leads [id] keys s t :=
    { extended with
      spared := fun other _ different => ⟨kept other (by simpa using different), by rw [marks]⟩
      entered := fun _ member => .inl (types ▸ member)
      added := fun other untaken different _ member => by
        rw [kept other (by simpa using different), (start.blank other untaken).1] at member
        cases member }
  refine ⟨?_, leads, here, marks ▸ pending.marks⟩
  refine start.carry extended types constants nulls (fun _ _ => by rw [marks])
    (fun other untaken => ?_) (fun other declared member ref refer => ?_) ?_ (fun other declared only => ?_) ?_
  · have early : ¬s.Taken other := by rwa [Taken, ← ids]
    rw [kept other (by rintro rfl; exact early pending.reserved.1), marks]
    exact start.blank other early
  · have early : s.declarations ref ≠ [] := by
      rw [declarations, mem_append] at member
      rcases member with member | member
      · exact start.closed other declared member ref refer
      · split at member
        · rw [mem_singleton] at member
          exact refers ref (member ▸ refer)
        · cases member
    rwa [kept ref (apart ref early)]
  · rw [pushed]
    exact inOrder_append start.ordered refers
  · by_cases same : other = id
    · subst same
      rw [here] at only
      cases only
      rw [reading inst refers, meanings, Function.update_self]
    · rw [kept other same] at only
      rw [meanings, Function.update_of_ne same, ← meanings, start.reads other declared only,
        reading declared (start.closed other declared (by simp [only]))]
  · rw [pushed]
    intro other member
    rcases mem_append.mp (Array.toList_push ▸ member : other ∈ s.out.globals.toList ++ [inst]) with early | late
    · exact start.named other early
    · rw [mem_singleton.mp late, result_of_target target]
      exact Option.some_ne_none id

end LowerState
end Shader
