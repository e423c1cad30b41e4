import Shader.Proofs.Lowering.ExactTypes

/-!
Declarations that are shared.

The null value and the undefined value of a type, and the type of functions with a signature, are declared when they
are asked for the first time, and a table remembers them. They are declared nowhere else, and the types and constants
that are declared on the way do not touch these tables. So each table lists the declarations of its kind one by one,
and there are no two declarations for one key.
-/
namespace Shader

open Binary List Instruction

variable {op : Opcode} {id : Word} {inst : Instruction} {ty : Ty} {s t : LowerState}

theorem nodup_map_of_forall₂ {α β γ δ : Type} {R : α → β → Prop} {key : α → γ} {content : β → δ} {as : List α}
    {bs : List β} (related : Forall₂ R as bs) (keys : (as.map key).Nodup)
    (tells : ∀ {a b a' b'}, R a b → R a' b' → content b = content b' → key a = key a') : (bs.map content).Nodup := by
  induction related with
  | nil => exact nodup_nil
  | cons head rest ih =>
    rw [map_cons, nodup_cons] at keys ⊢
    refine ⟨fun member => keys.1 ?_, ih keys.2⟩
    obtain ⟨b, among, same⟩ := mem_map.mp member
    obtain ⟨a, listed, held⟩ := forall₂_mem_right rest among
    exact mem_map.mpr ⟨a, listed, tells held head same⟩

/-- Instructions that declare what a key stands for, and nothing else does. -/
def Binary.Opcode.isShared : Opcode → Bool
  | .constantNull | .undef | .typeFunction => true
  | _ => false

theorem Binary.Opcode.isShared_of_declares (known : op.declares = true) : op.isShared = false := by
  unfold declares at known
  split at known
  case h_18 => cases known
  all_goals rfl

namespace LowerState

/-- The declarations with an opcode, in order. -/
def declaredWith (s : LowerState) (op : Opcode) : List Instruction := s.out.globals.toList.filter (·.op = op)

/-- The instruction declares a value that is known by its type. -/
def Placeholder (op : Opcode) (s : LowerState) (entry : Ty × Word) (inst : Instruction) : Prop :=
  ∃ typeWord, (entry.1, typeWord) ∈ s.types.entries ∧ inst = ⟨op, some typeWord, some entry.2, []⟩

/-- The instruction declares the type of functions with a signature. -/
def FunctionType (entry : Signature × Word) (inst : Instruction) : Prop :=
  inst = ⟨.typeFunction, none, some entry.2, .id entry.1.returnType :: entry.1.params.map .id⟩

/-- The table lists the declarations one by one, and no key is entered twice. -/
structure Listed {κ : Type} (tells : κ × Word → Instruction → Prop) (table : Table κ) (declared : List Instruction) :
    Prop where
  keys : (table.entries.map Prod.fst).Nodup
  told : Forall₂ tells table.entries declared.reverse

namespace Listed

variable {κ : Type} {tells : κ × Word → Instruction → Prop} {table : Table κ} {declared : List Instruction}

theorem mono {more : κ × Word → Instruction → Prop} (listed : Listed tells table declared)
    (implied : ∀ entry inst, tells entry inst → more entry inst) : Listed more table declared :=
  ⟨listed.keys, listed.told.imp implied⟩

theorem insert [DecidableEq κ] {key : κ} (listed : Listed tells table declared) (missing : table.find? key = none)
    (told : tells (key, id) inst) : Listed tells (table.insert key id) (declared ++ [inst]) := by
  refine ⟨nodup_cons.mpr ⟨fun member => ?_, listed.keys⟩, ?_⟩
  · obtain ⟨⟨_, word⟩, entered, rfl⟩ := mem_map.mp member
    exact Lower.not_mem_of_find? missing word entered
  · rw [reverse_append]
    exact .cons told listed.told

/-- Where the content of a declaration tells the key, no two declarations have the same content. -/
theorem nodup {γ : Type} {content : Instruction → γ} (listed : Listed tells table declared)
    (same : ∀ {first second a b}, tells first a → tells second b → content a = content b → first.1 = second.1) :
    (declared.map content).Nodup := by
  rw [← nodup_reverse, ← map_reverse]
  exact nodup_map_of_forall₂ listed.told listed.keys same

end Listed

/-- The tables list the declarations of their kinds. -/
structure Shared (s : LowerState) : Prop where
  nulls : Listed (Placeholder .constantNull s) s.nulls (s.declaredWith .constantNull)
  undefs : Listed (Placeholder .undef s) s.undefs (s.declaredWith .undef)
  signatures : Listed FunctionType s.signatures (s.declaredWith .typeFunction)

/-- The later state has the same tables of shared declarations, and `added` are those that are declared on the way. -/
structure Adds (added : List Instruction) (s t : LowerState) : Prop where
  types : s.types.entries ⊆ t.types.entries
  nulls : t.nulls = s.nulls
  undefs : t.undefs = s.undefs
  signatures : t.signatures = s.signatures
  declared : ∀ op, op.isShared = true → t.declaredWith op = s.declaredWith op ++ added.filter (·.op = op)

variable {s t u : LowerState} {added more : List Instruction}

theorem Placeholder.mono {entry : Ty × Word} (types : s.types.entries ⊆ t.types.entries)
    (told : Placeholder op s entry inst) : Placeholder op t entry inst := by
  obtain ⟨typeWord, typed, same⟩ := told
  exact ⟨typeWord, types typed, same⟩

namespace Adds

theorem of_same (same : s.SameDeclarations t) : Adds [] s t where
  types := by simp [same.types]
  nulls := same.nulls
  undefs := same.undefs
  signatures := same.signatures
  declared op _ := by simp [declaredWith, same.globals]

theorem trans (first : Adds added s t) (second : Adds more t u) : Adds (added ++ more) s u where
  types _ member := second.types (first.types member)
  nulls := second.nulls.trans first.nulls
  undefs := second.undefs.trans first.undefs
  signatures := second.signatures.trans first.signatures
  declared op shared := by
    rw [second.declared op shared, first.declared op shared, append_assoc, filter_append]

theorem push (inst : Instruction) : Adds [inst] s { s with out := s.out.append .globals inst } where
  types := Subset.refl _
  nulls := rfl
  undefs := rfl
  signatures := rfl
  declared op _ := by simp only [declaredWith, Assembly.append, Array.toList_push, filter_append]

/-- What is declared other than by the shared instructions does not count. -/
theorem push_apart (apart : inst.op.isShared = false) : Adds [] s { s with out := s.out.append .globals inst } :=
  { push inst with
    declared := fun op shared => by
      have different : inst.op ≠ op := by
        rintro rfl
        rw [shared] at apart
        cases apart
      simpa [different] using (push inst : Adds [inst] s _).declared op shared }

/-- A table that is as it was lists what it did, if nothing is declared on the way that it would list. -/
theorem listed {κ : Type} {table after : Table κ} {tells more : κ × Word → Instruction → Prop} (adds : Adds added s t)
    (shared : op.isShared = true) (other : ∀ inst ∈ added, inst.op ≠ op) (same : after = table)
    (listed : Listed tells table (s.declaredWith op)) (implied : ∀ entry inst, tells entry inst → more entry inst) :
    Listed more after (t.declaredWith op) := by
  have none : added.filter (·.op = op) = [] := by simpa [filter_eq_nil_iff] using other
  rw [adds.declared op shared, none, append_nil, same]
  exact listed.mono implied

/-- A table lists what is declared on the way under a new key. -/
theorem listed_insert {κ : Type} [DecidableEq κ] {table after : Table κ} {key : κ}
    {tells more : κ × Word → Instruction → Prop} (adds : Adds [inst] s t) (shared : op.isShared = true)
    (here : inst.op = op) (same : after = table) (listed : Listed tells table (s.declaredWith op))
    (implied : ∀ entry inst, tells entry inst → more entry inst) (missing : table.find? key = none)
    (told : more (key, id) inst) : Listed more (after.insert key id) (t.declaredWith op) := by
  rw [adds.declared op shared, filter_cons_of_pos (by simpa using here), filter_nil, same]
  exact (listed.mono implied).insert missing told

end Adds

theorem Shared.of_adds (shared : s.Shared) (adds : Adds [] s t) : t.Shared where
  nulls := adds.listed rfl (by simp) adds.nulls shared.nulls fun _ _ => .mono adds.types
  undefs := adds.listed rfl (by simp) adds.undefs shared.undefs fun _ _ => .mono adds.types
  signatures := adds.listed rfl (by simp) adds.signatures shared.signatures fun _ _ told => told

end LowerState

namespace Lower

open LowerState

variable {m : Module} {R : LowerState → LowerState → Prop}
variable {operands : List Operand} {options : Options}

/-- The state has the same tables of shared declarations as before, and declares nothing more of the kind. -/
abbrev Spares : LowerState → LowerState → Prop := Adds []

instance : Coarse Spares where
  trans := .trans
  same := .of_same

/-- The tables go on to list the declarations of their kinds. -/
def KeepsShared (s t : LowerState) : Prop := s.Shared → t.Shared

instance : Coarse KeepsShared where
  trans first second shared := second (first shared)
  same same shared := shared.of_adds (.of_same same)

/-- A relation that allows everything that spares the shared declarations. -/
class Sparing (R : LowerState → LowerState → Prop) : Prop extends Coarse R where
  spares : ∀ {s t}, Spares s t → R s t

instance : Sparing Spares := ⟨fun spares => spares⟩

instance : Sparing KeepsShared := ⟨fun spares shared => shared.of_adds spares⟩

section
variable [sparing : Sparing R]

theorem respects_declare (apart : op.isShared = false) : Respects R (declare op operands) := by
  refine ⟨fun s u t ran => sparing.spares ?_⟩
  obtain ⟨inst, made, rfl⟩ := add_run ran
  exact .push_apart (op_of_make made ▸ apart)

theorem respects_annotate : Respects R (add .annotations op operands) := by
  refine ⟨fun s u t ran => sparing.spares ?_⟩
  obtain ⟨inst, made, rfl⟩ := add_run ran
  exact { Adds.of_same (.refl s) with }

theorem respects_remember_types {make : Lower Word} (made : Respects R make) :
    Respects R (remember .types ty make) := by
  refine .remember_of (fun _ => sparing.same (.refl _)) sparing.trans (fun s id => sparing.spares ?_) made
  exact { Adds.of_same (.refl s) with types := subset_cons_self .. }

instance : HoldsOverPlainTypes (Respecting R) where
  declares _ _ known := respects_declare (Opcode.isShared_of_declares known)
  annotate _ _ _ := respects_annotate
  types _ := respects_remember_types
  constants := Respects.remember_of (fun _ => sparing.same (.refl _)) sparing.trans fun s _ =>
    sparing.spares { Adds.of_same (.refl s) with }

instance : HoldsOverTypes m (Respecting R) := holdsOverTypes_of_names respects_remember_types

end

/-- A type that was asked for is in the table. -/
theorem typeIdWith_entered {structType : StructId → Lower Word}
    (structs : ∀ struct s id t, (structType struct).run s = .ok (id, t) → (.struct struct, id) ∈ t.types.entries)
    (ran : (typeIdWith structType ty).run s = .ok (id, t)) : (ty.normal, id) ∈ t.types.entries := by
  have entered {key : Ty} {declaration : Word → Lower Unit} (ran : (declareType key declaration).run s = .ok (id, t)) :
      (key, id) ∈ t.types.entries := by
    rcases remember_run ran with ⟨found, rfl⟩ | ⟨-, middle, -, rfl⟩
    · exact mem_of_find? found
    · exact mem_cons_self
  induction ty with
  | atomic inner ih => exact ih ran
  | struct struct => exact structs struct s id t ran
  | _ => exact entered ran

theorem typeId_entered (ran : (typeId m ty).run s = .ok (id, t)) : (ty.normal, id) ∈ t.types.entries := by
  refine typeIdWith_entered (fun struct s id t ran => ?_) ran
  rcases remember_run ran with ⟨found, rfl⟩ | ⟨-, middle, -, rfl⟩
  · exact mem_of_find? found
  · exact mem_cons_self

/-- The declaration of a value that is known by its type. -/
theorem adds_placeholder (made : ∀ {typeWord id inst}, make op [.id typeWord, .id id] = .ok inst →
      inst = ⟨op, some typeWord, some id, []⟩) (ran : (do
      let typeWord ← typeId m ty.normal
      let id ← fresh
      declare op [.id typeWord, .id id]
      return id : Lower Word).run s = .ok (id, t)) :
    ∃ inst, inst.op = op ∧ Adds [inst] s t ∧ Placeholder op t (ty.normal, id) inst := by
  obtain ⟨typeWord, first, ranType, ran⟩ := run_bind_eq_ok.mp ran
  obtain ⟨new, second, ranFresh, ran⟩ := run_bind_eq_ok.mp ran
  obtain ⟨⟨⟩, third, ranDeclare, ran⟩ := run_bind_eq_ok.mp ran
  cases ran
  obtain ⟨inst, declared, rfl⟩ := add_run ranDeclare
  have typed : Has (Respecting Spares) (typeId m ty.normal) := has_typeId
  have early := typed.has s typeWord first ranType
  have late : Spares first second := Respects.fresh.run first id second ranFresh
  have entered : (ty.normal, typeWord) ∈ second.types.entries :=
    late.types (ty.normal_normal ▸ typeId_entered ranType)
  exact ⟨inst, op_of_make declared, (early.trans late).trans (.push inst), typeWord, entered, made declared⟩

theorem keepsShared_nullId (ty : Ty) : Respects KeepsShared (nullId m ty) := by
  refine ⟨fun s id t ran shared => ?_⟩
  rcases remember_run ran with ⟨-, rfl⟩ | ⟨missing, middle, ranMake, rfl⟩
  · exact shared
  · split at ranMake
    · cases ranMake
    · obtain ⟨inst, op, adds, told⟩ := adds_placeholder (make_typed rfl rfl) ranMake
      exact
        { nulls := adds.listed_insert rfl op adds.nulls shared.nulls (fun _ _ => .mono adds.types) missing told
          undefs := adds.listed rfl (by simp [op]) adds.undefs shared.undefs fun _ _ => .mono adds.types
          signatures := adds.listed rfl (by simp [op]) adds.signatures shared.signatures fun _ _ told => told }

theorem keepsShared_undefId (ty : Ty) : Respects KeepsShared (undefId m ty) := by
  refine ⟨fun s id t ran shared => ?_⟩
  rcases remember_run ran with ⟨-, rfl⟩ | ⟨missing, middle, ranMake, rfl⟩
  · exact shared
  · obtain ⟨inst, op, adds, told⟩ := adds_placeholder (make_typed rfl rfl) ranMake
    exact
      { nulls := adds.listed rfl (by simp [op]) adds.nulls shared.nulls fun _ _ => .mono adds.types
        undefs := adds.listed_insert rfl op adds.undefs shared.undefs (fun _ _ => .mono adds.types) missing told
        signatures := adds.listed rfl (by simp [op]) adds.signatures shared.signatures fun _ _ told => told }

instance : Signing KeepsShared where
  signatureId signature := by
    refine ⟨fun s id t ran shared => ?_⟩
    rcases remember_run ran with ⟨-, rfl⟩ | ⟨missing, middle, ranMake, rfl⟩
    · exact shared
    · obtain ⟨new, first, ranFresh, ranRest⟩ := run_bind_eq_ok.mp ranMake
      obtain ⟨⟨⟩, second, ranDeclare, ranPure⟩ := run_bind_eq_ok.mp ranRest
      cases ranPure
      obtain ⟨inst, made, rfl⟩ := add_run ranDeclare
      have op := op_of_make made
      have early : Spares s first := Respects.fresh.run s id first ranFresh
      have adds := early.trans (.push inst)
      have told : FunctionType (signature, id) inst := by
        rw [FunctionType, Instruction.make_untyped rfl rfl made]
        exact congrArg (fun rest => Instruction.mk _ _ _ (_ :: rest)) (Instruction.classify_ids signature.params)
      exact
        { nulls := adds.listed rfl (by simp [op]) adds.nulls shared.nulls fun _ _ => .mono adds.types
          undefs := adds.listed rfl (by simp [op]) adds.undefs shared.undefs fun _ _ => .mono adds.types
          signatures :=
            adds.listed_insert rfl op adds.signatures shared.signatures (fun _ _ told => told) missing told }

instance : Steady m KeepsShared where
  wordConstantId _ := has_wordConstantId
  typeId _ := has_typeId
  nullId := keepsShared_nullId
  undefId := keepsShared_undefId
  constantId _ := has_constantId_of_null keepsShared_nullId

instance : Decorating KeepsShared where
  decorate _ _ _ _ := respects_annotate

instance : Announcing KeepsShared where
  entryPoint operands := by
    refine ⟨fun s u t ran shared => shared.of_adds ?_⟩
    obtain ⟨inst, -, rfl⟩ := add_run ran
    exact { Adds.of_same (.refl s) with }

instance : HoldsOverVariables m options KeepsShared :=
  .of_declareGlobal fun _ _ _ _ => respects_declare rfl

theorem prepared_shared (m : Module) : (prepared m).Shared where
  nulls := ⟨nodup_nil, .nil⟩
  undefs := ⟨nodup_nil, .nil⟩
  signatures := ⟨nodup_nil, .nil⟩

/-- After a lowering the tables list the null values, the undefined values and the function types that are declared. -/
theorem shared_of_run {state : LowerState} (ran : Ran m options state) : state.Shared :=
  (respects_run ran : KeepsShared _ _) (prepared_shared m)

end Lower
end Shader
