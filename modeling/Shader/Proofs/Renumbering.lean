import Mathlib.Logic.Equiv.Basic
import Shader.Proofs.Lowering.Layout

/-!
Other numbers for the entries of a module.

What a module means does not depend on where the entries of its tables stand, as long as every reference is to the same
entry as before. A `Renumbering` gives every entry its new position, and `Renumbered` says that one module is the
other with new positions. The branches out of a construct may be listed in another order besides.
-/
namespace Shader

open List

/-- New positions in the tables of a module. -/
structure Renumbering where
  structs : Equiv.Perm Nat
  constants : Equiv.Perm Nat
  values : Equiv.Perm Nat
  insts : Equiv.Perm Nat
  blocks : Equiv.Perm Nat

/-- The construct with its branches out in another order, or as it is for any other instruction. -/
def Kind.withExits : Kind → List InstId → Kind
  | .conditional c, exits => .conditional { c with exits }
  | .loop l, exits => .loop { l with exits }
  | .switch s, exits => .switch { s with exits }
  | kind, _ => kind

namespace Renumbering

variable (ρ : Renumbering)

def struct (id : StructId) : StructId := ⟨ρ.structs id.index⟩
def constant (id : ConstId) : ConstId := ⟨ρ.constants id.index⟩
def value (id : ValueId) : ValueId := ⟨ρ.values id.index⟩
def inst (id : InstId) : InstId := ⟨ρ.insts id.index⟩
def block (id : BlockId) : BlockId := ⟨ρ.blocks id.index⟩

def ty : Ty → Ty
  | .vector elem width => .vector (ty elem) width
  | .matrix elem columns rows => .matrix (ty elem) columns rows
  | .array elem count stride => .array (ty elem) count stride
  | .atomic inner => .atomic (ty inner)
  | .pointer space store access => .pointer space (ty store) access
  | .struct id => .struct (ρ.struct id)
  | .sampledTexture dim sampled => .sampledTexture dim (ty sampled)
  | .multisampledTexture dim sampled => .multisampledTexture dim (ty sampled)
  | .storageTexture dim format access sampled => .storageTexture dim format access (ty sampled)
  | .inputAttachment sampled => .inputAttachment (ty sampled)
  | .sampledImage image => .sampledImage (ty image)
  | plain => plain

def member (member : Member) : Member := { member with ty := ρ.ty member.ty }

def structDef (definition : StructDef) : StructDef :=
  { definition with members := definition.members.map ρ.member }

def stored : Constant → Constant
  | .scalar value => .scalar value
  | .composite ty elements => .composite (ρ.ty ty) (elements.map ρ.constant)
  | .splat ty element count => .splat (ρ.ty ty) (ρ.constant element) count

def operand : Value → Value
  | .constant id => .constant (ρ.constant id)
  | .ssa id => .ssa (ρ.value id)
  | .literal word => .literal word

def origin : Origin → Origin
  | .result id => .result (ρ.inst id)
  | .functionParam function => .functionParam function
  | .blockParam id => .blockParam (ρ.block id)

def valueDef (definition : ValueDef) : ValueDef :=
  { definition with ty := ρ.ty definition.ty, origin := ρ.origin definition.origin }

def selector : Selector → Selector
  | .otherwise => .otherwise
  | .value id => .value (ρ.constant id)

def case (case : Case) : Case := ⟨case.selectors.map ρ.selector, ρ.block case.block⟩

def variableDecl (declaration : Variable) : Variable :=
  { declaration with initializer := declaration.initializer.map ρ.operand }

def conditional (c : Conditional) : Conditional :=
  ⟨ρ.operand c.condition, ρ.block c.whenTrue, ρ.block c.whenFalse, c.exits.map ρ.inst⟩

def loop (l : Loop) : Loop :=
  ⟨l.initializer.map ρ.block, ρ.block l.body, ρ.block l.continuing, l.exits.map ρ.inst⟩

def switch (s : Switch) : Switch := ⟨ρ.operand s.condition, s.cases.map ρ.case, s.exits.map ρ.inst⟩

def kind : Kind → Kind
  | .access object indices => .access (ρ.operand object) (indices.map ρ.operand)
  | .binary op lhs rhs => .binary op (ρ.operand lhs) (ρ.operand rhs)
  | .unary op value => .unary op (ρ.operand value)
  | .bitcast value => .bitcast (ρ.operand value)
  | .convert value => .convert (ρ.operand value)
  | .construct args => .construct (args.map ρ.operand)
  | .swizzle object indices => .swizzle (ρ.operand object) indices
  | .load source => .load (ρ.operand source)
  | .store target value => .store (ρ.operand target) (ρ.operand value)
  | .loadElement source index => .loadElement (ρ.operand source) (ρ.operand index)
  | .storeElement target index value => .storeElement (ρ.operand target) (ρ.operand index) (ρ.operand value)
  | .var declaration => .var (ρ.variableDecl declaration)
  | .bind value => .bind (ρ.operand value)
  | .builtin fn args => .builtin fn (args.map ρ.operand)
  | .targetCall fn args => .targetCall fn (args.map ρ.operand)
  | .call target args => .call target (args.map ρ.operand)
  | .conditional c => .conditional (ρ.conditional c)
  | .loop l => .loop (ρ.loop l)
  | .switch s => .switch (ρ.switch s)
  | .ret value => .ret (value.map ρ.operand)
  | .breakIf condition target nextArgs exitArgs =>
    .breakIf (ρ.operand condition) (ρ.inst target) (nextArgs.map ρ.operand) (exitArgs.map ρ.operand)
  | .continueTo target args => .continueTo (ρ.inst target) (args.map ρ.operand)
  | .nextIteration target args => .nextIteration (ρ.inst target) (args.map ρ.operand)
  | .exitIf target args => .exitIf (ρ.inst target) (args.map ρ.operand)
  | .exitLoop target args => .exitLoop (ρ.inst target) (args.map ρ.operand)
  | .exitSwitch target args => .exitSwitch (ρ.inst target) (args.map ρ.operand)
  | .terminate => .terminate
  | .unreachable => .unreachable

def instDef (inst : Inst) : Inst := ⟨ρ.kind inst.kind, inst.results.map ρ.value, ρ.block inst.block⟩

def blockDef (b : Block) : Block :=
  ⟨b.insts.map ρ.inst, b.params.map ρ.value, b.parent.map ρ.inst, b.inbound.map ρ.inst⟩

def function (function : Function) : Function :=
  { function with
    params := function.params.map ρ.value, returnType := ρ.ty function.returnType, entry := ρ.block function.entry }

/-- The instruction with new positions and its branches out in any order. -/
def SameInst (inst other : Inst) : Prop :=
  ∃ exits, exits.Perm inst.kind.exits ∧ other = ρ.instDef { inst with kind := inst.kind.withExits exits }

end Renumbering

namespace Renumbering

/-- The positions there were before. -/
def symm (ρ : Renumbering) : Renumbering :=
  ⟨ρ.structs.symm, ρ.constants.symm, ρ.values.symm, ρ.insts.symm, ρ.blocks.symm⟩

variable {ρ : Renumbering}

theorem constant_injective : Function.Injective ρ.constant :=
  Function.LeftInverse.injective (g := ρ.symm.constant) fun id => by simp [constant, symm]

theorem value_injective : Function.Injective ρ.value :=
  Function.LeftInverse.injective (g := ρ.symm.value) fun id => by simp [value, symm]

theorem inst_injective : Function.Injective ρ.inst :=
  Function.LeftInverse.injective (g := ρ.symm.inst) fun id => by simp [inst, symm]

theorem block_injective : Function.Injective ρ.block :=
  Function.LeftInverse.injective (g := ρ.symm.block) fun id => by simp [block, symm]

theorem ty_symm (ty : Ty) : ρ.symm.ty (ρ.ty ty) = ty := by
  induction ty with
  | struct id => simp [Renumbering.ty, struct, symm]
  | _ => simp_all [Renumbering.ty]

theorem ty_injective : Function.Injective ρ.ty := Function.LeftInverse.injective ty_symm

theorem stored_injective : Function.Injective ρ.stored := by
  refine Function.LeftInverse.injective (g := ρ.symm.stored) fun constant => ?_
  have constants (id : ConstId) : ρ.symm.constant (ρ.constant id) = id := by simp [Renumbering.constant, symm]
  cases constant <;> simp [stored, ty_symm, constants, Function.comp_def]

@[simp] theorem variableDecl_attributes (declaration : Variable) :
    (ρ.variableDecl declaration).attributes = declaration.attributes := rfl

@[simp] theorem stored_ty (constant : Constant) : (ρ.stored constant).ty = ρ.ty constant.ty := by
  cases constant with
  | scalar value => cases value <;> rfl
  | composite | splat => rfl

/-- Equal elements stay equal, and others stay apart. -/
theorem stored_canonical (constant : Constant) : (ρ.stored constant).canonical = ρ.stored constant.canonical := by
  cases constant with
  | scalar | splat => rfl
  | composite ty elements =>
    cases elements with
    | nil => rfl
    | cons first rest =>
      simp only [stored, Constant.canonical, map_cons, all_map, length_map, Function.comp_def,
        constant_injective.eq_iff]
      split <;> rfl

section
variable {ty : Ty}

@[simp] theorem ty_normal : (ρ.ty ty).normal = ρ.ty ty.normal := by
  induction ty with
  | _ => simp_all [Renumbering.ty, Ty.normal]

@[simp] theorem ty_component : (ρ.ty ty).component = ρ.ty ty.component := by
  cases ty <;> rfl

@[simp] theorem ty_isScalar : (ρ.ty ty).isScalar = ty.isScalar := by
  cases ty <;> rfl

@[simp] theorem ty_isFloatScalar : (ρ.ty ty).isFloatScalar = ty.isFloatScalar := by
  cases ty <;> rfl

@[simp] theorem ty_isIntegerScalar : (ρ.ty ty).isIntegerScalar = ty.isIntegerScalar := by
  cases ty <;> rfl

@[simp] theorem ty_eq_bool : ρ.ty ty = .bool ↔ ty = .bool := ty_injective.eq_iff' rfl

@[simp] theorem ty_eq_i32 : ρ.ty ty = .i32 ↔ ty = .i32 := ty_injective.eq_iff' rfl

@[simp] theorem ty_eq_u32 : ρ.ty ty = .u32 ↔ ty = .u32 := ty_injective.eq_iff' rfl

@[simp] theorem ty_eq_f16 : ρ.ty ty = .f16 ↔ ty = .f16 := ty_injective.eq_iff' rfl

@[simp] theorem ty_isFloat : (ρ.ty ty).isFloat = ty.isFloat := by simp [Ty.isFloat]

@[simp] theorem ty_isInteger : (ρ.ty ty).isInteger = ty.isInteger := by simp [Ty.isInteger]

@[simp] theorem ty_isSigned : (ρ.ty ty).isSigned = ty.isSigned := by simp [Ty.isSigned]

@[simp] theorem ty_isUnsigned : (ρ.ty ty).isUnsigned = ty.isUnsigned := by simp [Ty.isUnsigned]

@[simp] theorem ty_isBool : (ρ.ty ty).isBool = ty.isBool := by simp [Ty.isBool]

@[simp] theorem ty_byteSize? : (ρ.ty ty).byteSize? = ty.byteSize? := by
  induction ty with
  | vector elem width ih => simp [Renumbering.ty, Ty.byteSize?, ih]
  | _ => rfl

@[simp] theorem ty_deepestElement : (ρ.ty ty).deepestElement = ρ.ty ty.deepestElement := by
  induction ty with
  | vector | matrix | array => simp_all [Renumbering.ty, Ty.deepestElement]
  | _ => rfl

@[simp] theorem ty_pointee? : (ρ.ty ty).pointee? = ty.pointee?.map ρ.ty := by
  cases ty <;> rfl

end

end Renumbering

/-- The entries of one table are those of the other at new positions. What is not in the table keeps its number. -/
structure Permutes {α β : Type} (places : Equiv.Perm Nat) (agree : α → β → Prop) (table : Array α) (other : Array β) :
    Prop where
  size : other.size = table.size
  fixed : ∀ index, table.size ≤ index → places index = index
  entry : ∀ index entry, table[index]? = some entry → ∃ new, other[places index]? = some new ∧ agree entry new

/-- The other module is the one with new positions in its tables. The root block stays where it is, the functions
keep their order, and every construct may list its branches out in another order. -/
class Renumbered (ρ : outParam Renumbering) (m : Module) (other : outParam Module) : Prop where
  structs : Permutes ρ.structs (fun entry new => new = ρ.structDef entry) m.structs other.structs
  constants : Permutes ρ.constants (fun entry new => new = ρ.stored entry) m.constants.items other.constants.items
  values : Permutes ρ.values (fun entry new => new = ρ.valueDef entry) m.values other.values
  insts : Permutes ρ.insts ρ.SameInst m.insts other.insts
  blocks : Permutes ρ.blocks (fun entry new => new = ρ.blockDef entry) m.blocks other.blocks
  root : ρ.blocks 0 = 0
  functions : other.functions = m.functions.map ρ.function

/-- Where the one succeeds, the other does, and the results agree. -/
def Follows {ε α β : Type} (agree : α → β → Prop) (outcome : Except ε α) (other : Except ε β) : Prop :=
  ∀ a, outcome = .ok a → ∃ b, other = .ok b ∧ agree a b

namespace Follows

variable {ε α β γ δ : Type} {agree : α → β → Prop} {later : γ → δ → Prop}
variable {other : Except ε β} {outcome : Except ε α} {κ ι : Type} {change : κ → ι} {list : List κ}

theorem pure {a : α} {b : β} (same : agree a b) : Follows agree (pure a : Except ε α) (pure b) := by
  rintro _ ⟨⟩
  exact ⟨b, rfl, same⟩

theorem error {fault : ε} : Follows agree (.error fault) other := by
  rintro _ ⟨⟩

theorem bind {next : α → Except ε γ} {rest : β → Except ε δ}
    (first : Follows agree outcome other) (second : ∀ a b, agree a b → Follows later (next a) (rest b)) :
    Follows later (outcome >>= next) (other >>= rest) := by
  intro c ran
  obtain ⟨a, made, done⟩ := bind_eq_ok.mp ran
  obtain ⟨b, followed, same⟩ := first a made
  obtain ⟨d, finished, last⟩ := second a b same c done
  exact ⟨d, bind_eq_ok.mpr ⟨b, followed, finished⟩, last⟩

theorem seen (follows : Follows agree outcome other) :
    Follows (fun a b => outcome = .ok a ∧ other = .ok b ∧ agree a b) outcome other := by
  intro a made
  obtain ⟨b, found, same⟩ := follows a made
  exact ⟨b, found, made, found, same⟩

theorem branch {condition : Prop} [Decidable condition] {yes no : Except ε α} {yes' no' : Except ε β}
    (first : Follows agree yes yes') (second : Follows agree no no') :
    Follows agree (if condition then yes else no) (if condition then yes' else no') := by
  by_cases holds : condition
  · rwa [if_pos holds, if_pos holds]
  · rwa [if_neg holds, if_neg holds]

theorem mapM {give : α → β} {step : κ → Except ε α} {other : ι → Except ε β}
    (each : ∀ key ∈ list, Follows (fun a b => b = give a) (step key) (other (change key))) :
    Follows (fun made found => found = made.map give) (list.mapM step) ((list.map change).mapM other) := by
  induction list with
  | nil => exact .pure rfl
  | cons key rest ih =>
    rw [map_cons, mapM_cons, mapM_cons]
    refine (each key mem_cons_self).bind fun a b same => ?_
    refine (ih fun key member => each key (mem_cons_of_mem _ member)).bind fun made found all => ?_
    exact .pure (by rw [same, all, map_cons])

theorem allM {step : κ → Except ε Bool} {other : ι → Except ε Bool}
    (each : ∀ key ∈ list, Follows Eq (step key) (other (change key))) :
    Follows Eq (list.allM step) ((list.map change).allM other) := by
  induction list with
  | nil => exact .pure rfl
  | cons key rest ih =>
    rw [map_cons, allM_cons, allM_cons]
    refine (each key mem_cons_self).bind fun holds _ same => ?_
    subst same
    cases holds with
    | false => exact .pure rfl
    | true => exact ih fun key member => each key (mem_cons_of_mem _ member)

end Follows

namespace Permutes

variable {α β : Type} {places : Equiv.Perm Nat} {agree : α → β → Prop} {table : Array α} {other : Array β}

/-- Every entry of the other table is one of the table. -/
theorem source (permuted : Permutes places agree table other) {index : Nat} {new : β}
    (found : other[index]? = some new) : ∃ earlier entry, table[earlier]? = some entry ∧ agree entry new ∧
      index = places earlier := by
  have bound : index < table.size := permuted.size ▸ (Array.getElem?_eq_some_iff.mp found).1
  have within : places.symm index < table.size := by
    by_contra outside
    have same := permuted.fixed _ (Nat.le_of_not_lt outside)
    rw [Equiv.apply_symm_apply] at same
    exact outside (same ▸ bound)
  obtain ⟨new', there, agrees⟩ := permuted.entry _ _ (Array.getElem?_eq_getElem within)
  rw [Equiv.apply_symm_apply, found] at there
  cases there
  exact ⟨_, _, Array.getElem?_eq_getElem within, agrees, (Equiv.apply_symm_apply _ _).symm⟩

/-- There is one table with the entries at their new positions. -/
theorem unique {change : α → β} {other other' : Array β} (first : Permutes places (fun a b => b = change a) table other)
    (second : Permutes places (fun a b => b = change a) table other') : other = other' := by
  refine Array.ext_getElem? fun index => ?_
  cases found : other[index]? with
  | some new =>
    obtain ⟨earlier, entry, held, rfl, rfl⟩ := first.source found
    obtain ⟨_, there, rfl⟩ := second.entry earlier entry held
    exact there.symm
  | none =>
    have outside : other'.size ≤ index := second.size ▸ first.size ▸ Array.getElem?_eq_none_iff.mp found
    exact (Array.getElem?_eq_none outside).symm

/-- The table with another entry at its end. -/
theorem push (permuted : Permutes places agree table other) {entry : α} {new : β} (agrees : agree entry new) :
    Permutes places agree (table.push entry) (other.push new) where
  size := by simp [permuted.size]
  fixed index beyond := permuted.fixed index (Nat.le_of_succ_le (by simpa using beyond))
  entry index found here := by
    rw [Array.getElem?_push] at here
    split at here
    · rename_i last
      cases here
      refine ⟨new, ?_, agrees⟩
      rw [last, permuted.fixed _ le_rfl, ← permuted.size, Array.getElem?_push_size]
    · obtain ⟨new', there, same⟩ := permuted.entry index found here
      refine ⟨new', ?_, same⟩
      rw [Array.getElem?_push_lt (Array.getElem?_eq_some_iff.mp there).1]
      exact congrArg some (Array.getElem?_eq_some_iff.mp there).2

/-- A look-up that finds an entry finds the same entry at its new position. -/
theorem follows {ε : Type} (permuted : Permutes places agree table other) {index : Nat} {outcome : Except ε α}
    {found : Except ε β} (reads : ∀ {a}, outcome = .ok a ↔ a ∈ table[index]?)
    (finds : ∀ {b}, found = .ok b ↔ b ∈ other[places index]?) : Follows agree outcome found := by
  intro a here
  obtain ⟨b, there, same⟩ := permuted.entry index a (reads.mp here)
  exact ⟨b, finds.mpr there, same⟩

end Permutes

namespace Renumbered

variable {ρ : Renumbering} {m other : Module} [alike : Renumbered ρ m other]

theorem structDef (id : StructId) :
    Follows (fun a b => b = ρ.structDef a) (m.structDef id) (other.structDef (ρ.struct id)) :=
  alike.structs.follows Module.structDef_eq_ok Module.structDef_eq_ok

theorem value (id : ValueId) : Follows (fun a b => b = ρ.valueDef a) (m.value id) (other.value (ρ.value id)) :=
  alike.values.follows Module.value_eq_ok Module.value_eq_ok

theorem inst (id : InstId) : Follows ρ.SameInst (m.inst id) (other.inst (ρ.inst id)) :=
  alike.insts.follows Module.inst_eq_ok Module.inst_eq_ok

theorem block (id : BlockId) : Follows (fun a b => b = ρ.blockDef a) (m.block id) (other.block (ρ.block id)) :=
  alike.blocks.follows Module.block_eq_ok Module.block_eq_ok

end Renumbered

namespace Renumbering.SameInst

variable {ρ : Renumbering} {inst other : Inst}

theorem results (same : ρ.SameInst inst other) : other.results = inst.results.map ρ.value := by
  obtain ⟨exits, -, rfl⟩ := same
  rfl

theorem block (same : ρ.SameInst inst other) : other.block = ρ.block inst.block := by
  obtain ⟨exits, -, rfl⟩ := same
  rfl

theorem isControl (same : ρ.SameInst inst other) : other.kind.isControl = inst.kind.isControl := by
  obtain ⟨exits, -, rfl⟩ := same
  cases inst.kind <;> simp [instDef, Kind.withExits, kind, Kind.isControl]

theorem isTerminator (same : ρ.SameInst inst other) : other.kind.isTerminator = inst.kind.isTerminator := by
  obtain ⟨exits, -, rfl⟩ := same
  cases inst.kind <;> simp [instDef, Kind.withExits, kind, Kind.isTerminator]

/-- The branches out are those of the construct, in the other order. -/
theorem exits_withExits {kind : Kind} {exits : List InstId} (perm : exits.Perm kind.exits) :
    (ρ.kind (kind.withExits exits)).exits = exits.map ρ.inst := by
  cases kind
  case conditional | loop | switch => rfl
  all_goals
    rw [perm_nil.mp perm]
    rfl

theorem branchArgs (same : ρ.SameInst inst other) : other.kind.branchArgs = inst.kind.branchArgs.map ρ.operand := by
  obtain ⟨exits, -, rfl⟩ := same
  cases inst.kind <;> simp [instDef, Kind.withExits, kind, Kind.branchArgs]

theorem exitArgs (same : ρ.SameInst inst other) : other.kind.exitArgs = inst.kind.exitArgs.map ρ.operand := by
  obtain ⟨exits, -, rfl⟩ := same
  cases inst.kind <;> simp [instDef, Kind.withExits, kind, Kind.exitArgs]

theorem children (same : ρ.SameInst inst other) : other.kind.children = inst.kind.children.map ρ.block := by
  obtain ⟨exits, -, rfl⟩ := same
  cases inst.kind with
  | loop l => cases initial : l.initializer <;> simp [instDef, Kind.withExits, kind, loop, Kind.children, initial]
  | switch s => simp [instDef, Kind.withExits, kind, switch, Kind.children, case, Function.comp_def]
  | _ => simp [instDef, Kind.withExits, kind, conditional, Kind.children]

theorem operands (same : ρ.SameInst inst other) : other.kind.operands = inst.kind.operands.map ρ.operand := by
  obtain ⟨exits, -, rfl⟩ := same
  cases inst.kind with
  | var declaration =>
    cases initial : declaration.initializer <;>
      simp [instDef, Kind.withExits, kind, variableDecl, Kind.operands, initial]
  | ret value => cases value <;> simp [instDef, Kind.withExits, kind, Kind.operands]
  | _ => simp [instDef, Kind.withExits, kind, conditional, switch, Kind.operands]

end Renumbering.SameInst

end Shader
