import Shader.Proofs.Lowering.MirrorConstructs

/-!
What a lowering names.

Functions, values, structs and the members of structs keep their names. A name is written with the id that its subject
has by then, or is about to have: that of a struct is entered when its declaration is complete. So the growth of the
names is said with ids that are promised to subjects, and a promise is redeemed once the id is in its table.
-/
namespace Shader

open Binary List

theorem Module.Opens.isControl {m : Module} {inst : Inst} {child : BlockId} (opens : m.Opens inst child) :
    inst.kind.isControl = true := by
  cases opens with
  | branch kind | initializer kind | body kind | continuing kind | case kind =>
    rw [kind]
    rfl

/-- What may have a name. -/
inductive Subject where
  | function (ref : FuncId)
  | value (id : ValueId)
  | struct (ref : StructId)
  | member (ref : StructId) (index : Nat)
  deriving DecidableEq

/-- The name of a subject. -/
def Module.nameOf? (m : Module) : Subject → Option String
  | .function ref => (m.functions[ref.index]?).map Function.name
  | .value id => (m.values[id.index]?).bind ValueDef.name
  | .struct ref => (m.structs[ref.index]?).bind StructDef.name
  | .member ref index => (m.structs[ref.index]?).bind fun definition => (definition.members[index]?).bind Member.name

/-- The values that an instruction names. A variable is named where it is declared, with what it declares. -/
def Inst.named (inst : Inst) : List ValueId :=
  match inst.kind with
  | .var _ => inst.result?.toList
  | _ => inst.results

namespace Subject

/-- The instruction that gives a subject its name. Members are told apart by their positions. -/
def naming (id : Word) (name : String) : Subject → Instruction
  | .member _ index => ⟨.memberName, none, none, [.id id, .literal (.ofNat index), .text name]⟩
  | .function _ | .value _ | .struct _ => ⟨.name, none, none, [.id id, .text name]⟩

/-- The structs that the subject is, or belongs to. -/
def struct? : Subject → Option StructId
  | .struct ref | .member ref _ => some ref
  | .function _ | .value _ => none

end Subject

namespace LowerState

/-- The subject has the id. A member has that of its struct. -/
def HasId (s : LowerState) : Subject → Word → Prop
  | .function ref, id => (ref, id) ∈ s.functions.entries
  | .value value, id => (value, id) ∈ s.values.entries
  | .struct ref, id | .member ref _, id => (Ty.struct ref, id) ∈ s.types.entries

/-- The subject is named by its id, if it has a name. -/
def Shows (m : Module) (s : LowerState) (subject : Subject) (id : Word) : Prop :=
  ∀ name, m.nameOf? subject = some name → subject.naming id name ∈ s.out.names.toList

/-- The subject, if it has a name, has an id and is named by it. -/
def Tells (m : Module) (s : LowerState) (subject : Subject) : Prop :=
  ∀ name, m.nameOf? subject = some name → ∃ id, s.HasId subject id ∧ subject.naming id name ∈ s.out.names.toList

/-- Nothing loses its id or its name. -/
structure Retains (s t : LowerState) : Prop where
  functions : s.functions.entries ⊆ t.functions.entries
  values : s.values.entries ⊆ t.values.entries
  types : s.types.entries ⊆ t.types.entries
  names : s.out.names.toList ⊆ t.out.names.toList

/-- The names that come in are those of subjects that have an id or are promised one, and a struct that comes in
is named. -/
structure NamesGrow (m : Module) (promised : Subject → Word → Prop) (s t : LowerState) : Prop where
  kept : s.Retains t
  sound : ∀ inst ∈ t.out.names.toList, inst ∈ s.out.names.toList ∨ ∃ subject id name,
    m.nameOf? subject = some name ∧ (t.HasId subject id ∨ promised subject id) ∧ inst = subject.naming id name
  structs : ∀ ref id, (Ty.struct ref, id) ∈ t.types.entries → (Ty.struct ref, id) ∈ s.types.entries ∨
    ∀ subject, subject.struct? = some ref → t.Shows m subject id

variable {m : Module} {promised : Subject → Word → Prop} {s t u : LowerState} {subject : Subject} {id : Word}

theorem Retains.refl (s : LowerState) : s.Retains s :=
  ⟨Subset.refl _, Subset.refl _, Subset.refl _, Subset.refl _⟩

theorem Retains.trans (first : s.Retains t) (second : t.Retains u) : s.Retains u where
  functions := Subset.trans first.functions second.functions
  values := Subset.trans first.values second.values
  types := Subset.trans first.types second.types
  names := Subset.trans first.names second.names

theorem HasId.later (has : s.HasId subject id) (kept : s.Retains t) : t.HasId subject id := by
  cases subject with
  | function => exact kept.functions has
  | value => exact kept.values has
  | struct | member => exact kept.types has

theorem Shows.later (shows : s.Shows m subject id) (kept : s.Retains t) : t.Shows m subject id :=
  fun name named => kept.names (shows name named)

theorem Shows.tells (shows : s.Shows m subject id) (has : s.HasId subject id) : s.Tells m subject :=
  fun name named => ⟨id, has, shows name named⟩

namespace NamesGrow

variable {more : Subject → Word → Prop}

/-- What is named, and which types are declared, stays the same. -/
theorem of_same (names : t.out.names = s.out.names) (functions : s.functions.entries ⊆ t.functions.entries)
    (values : s.values.entries ⊆ t.values.entries) (types : s.types.entries ⊆ t.types.entries)
    (structs : ∀ ref id, (Ty.struct ref, id) ∈ t.types.entries → (Ty.struct ref, id) ∈ s.types.entries) :
    s.NamesGrow m promised t where
  kept := ⟨functions, values, types, by rw [names]; exact Subset.refl _⟩
  sound inst listed := .inl (names ▸ listed)
  structs ref id declared := .inl (structs ref id declared)

theorem refl (s : LowerState) : s.NamesGrow m promised s :=
  of_same rfl (Subset.refl _) (Subset.refl _) (Subset.refl _) fun _ _ => id

theorem trans (first : s.NamesGrow m promised t) (second : t.NamesGrow m promised u) : s.NamesGrow m promised u where
  kept := first.kept.trans second.kept
  sound inst listed := by
    rcases second.sound inst listed with listed | new
    · rcases first.sound inst listed with listed | ⟨subject, id, name, named, held, same⟩
      · exact .inl listed
      · exact .inr ⟨subject, id, name, named, held.imp_left fun has => has.later second.kept, same⟩
    · exact .inr new
  structs ref id declared := by
    rcases second.structs ref id declared with declared | shown
    · exact (first.structs ref id declared).imp_right fun shown subject part => (shown subject part).later second.kept
    · exact .inr shown

/-- More may be promised. -/
theorem mono (grows : s.NamesGrow m promised t)
    (fewer : ∀ subject id, promised subject id → more subject id) : s.NamesGrow m more t where
  kept := grows.kept
  sound inst listed := (grows.sound inst listed).imp_right fun ⟨subject, id, name, named, held, same⟩ =>
    ⟨subject, id, name, named, held.imp_right (fewer subject id), same⟩
  structs := grows.structs

/-- Promises to subjects that have their ids are redeemed. -/
theorem redeem (grows : s.NamesGrow m more t)
    (held : ∀ subject id, more subject id → t.HasId subject id ∨ promised subject id) : s.NamesGrow m promised t where
  kept := grows.kept
  sound inst listed := (grows.sound inst listed).imp_right fun ⟨subject, id, name, named, known, same⟩ =>
    ⟨subject, id, name, named, known.elim .inl (held subject id), same⟩
  structs := grows.structs

end NamesGrow
end LowerState

namespace Lower

open LowerState

variable {κ : Type} {register : Register κ} {operands : List Operand}

/-- The property of steps along which the names of a module grow. -/
abbrev NamesOnly (m : Module) (promised : Subject → Word → Prop) : Property := Respecting (NamesGrow m promised)

section
variable {m : Module} {promised : Subject → Word → Prop} {α β : Type} {subject : Subject}

instance : Sees (NamesGrow m promised) fun s => (s.out.names, s.functions, s.values, s.types) where
  same views := by
    simp only [Prod.mk.injEq] at views
    obtain ⟨names, functions, values, types⟩ := views
    refine .of_same names ?_ ?_ ?_ fun ref id declared => types ▸ declared
    · rw [functions]; exact Subset.refl _
    · rw [values]; exact Subset.refl _
    · rw [types]; exact Subset.refl _
  trans := .trans

theorem has_intern {constant : Constant} : Has (NamesOnly m promised) (intern constant) :=
  .of_view fun s id t ran => by
    cases ran
    rfl

instance : Basic (NamesOnly m promised) where
  __ := (Sees.composes : Composes (NamesOnly m promised))
  fresh := .of_view fun s id t ran => by
    obtain ⟨-, rfl, -⟩ := fresh_run ran
    rfl
  scalar _ := has_intern
  require capability := .modify_unseen fun s => by
    dsimp only [Assembly.pushCapability]
    split <;> rfl

/-- A section other than that of names. -/
theorem has_add {part : Assembly.Section} (other : part ≠ .names) {op : Opcode} :
    Has (NamesOnly m promised) (add part op operands) := by
  refine .of_view fun s u t ran => ?_
  obtain ⟨inst, -, rfl⟩ := add_run ran
  cases part with
  | names => exact absurd rfl other
  | imports | executionModes | entryPoints | annotations | globals => rfl

instance : HoldsOverTables (NamesOnly m promised) where
  declare _ _ _ := has_add (by decide)
  annotate _ _ _ := has_add (by decide)
  types := by
    intro ty make plain made
    refine Respects.remember_of .refl .trans (fun s id => ?_) made
    refine .of_same rfl (Subset.refl _) (Subset.refl _) (subset_cons_self ..) fun ref word declared => ?_
    rcases mem_cons.mp declared with same | declared
    · cases same
      exact absurd rfl (plain ref)
    · exact declared
  constants _ := .remember_unseen
  nulls _ := .remember_unseen
  undefs _ := .remember_unseen

end

/-- The names grow along the step, and once it has been run the fact holds of what came of it. -/
def Leaves (m : Module) (promised : Subject → Word → Prop) {α : Type} (step : Lower α) (fact : α → LowerState → Prop) :
    Prop :=
  ∀ s a t, step.run s = .ok (a, t) → s.NamesGrow m promised t ∧ ∀ later, t.Retains later → fact a later

namespace Leaves

variable {m : Module} {promised : Subject → Word → Prop} {α β : Type} {step : Lower α} {fact : α → LowerState → Prop}
variable {first : Lower Word} {f : α → Lower β} {list : List α} {subject : Subject}

theorem has (leaves : Leaves m promised step fact) : Has (NamesOnly m promised) step :=
  ⟨fun s a t ran => (leaves s a t ran).1⟩

theorem of_has (grows : Has (NamesOnly m promised) step) (fact : α → LowerState → Prop)
    (holds : ∀ a later, fact a later) : Leaves m promised step fact :=
  fun s a t ran => ⟨grows.has s a t ran, fun later _ => holds a later⟩

theorem mono {weaker : α → LowerState → Prop} (leaves : Leaves m promised step fact)
    (implied : ∀ a later, fact a later → weaker a later) : Leaves m promised step weaker :=
  fun s a t ran => (leaves s a t ran).imp_right fun held later kept => implied a later (held later kept)

theorem fail {fault : Fault} : Leaves m promised (Lower.fail fault) fact := fun _ _ _ ran => by cases ran

theorem fail_bind {fault : Fault} {next : β → Lower α} : Leaves m promised (Lower.fail fault >>= next) fact :=
  fun _ _ _ ran => by cases ran

theorem throw_bind {failure : Failure} {next : β → Lower α} : Leaves m promised (throw failure >>= next) fact :=
  fun _ _ _ ran => by cases ran

theorem of_ite {condition : Prop} [Decidable condition] {other : Lower α}
    (yes : condition → Leaves m promised step fact) (no : ¬condition → Leaves m promised other fact) :
    Leaves m promised (if condition then step else other) fact := by
  split
  · exact yes ‹_›
  · exact no ‹_›

theorem bind {next : α → Lower β} {more : α → β → LowerState → Prop} (first : Leaves m promised step fact)
    (second : ∀ a, Leaves m promised (next a) (more a)) :
    Leaves m promised (step >>= next) fun b later => ∃ a, fact a later ∧ more a b later := by
  intro s b u ran
  obtain ⟨a, t, ran, rest⟩ := run_bind_eq_ok.mp ran
  obtain ⟨grows, held⟩ := first s a t ran
  obtain ⟨growsMore, heldMore⟩ := second a t b u rest
  exact ⟨grows.trans growsMore, fun later extended =>
    ⟨a, held later (growsMore.kept.trans extended), heldMore later extended⟩⟩

/-- What both steps leave. -/
theorem both {next : α → Lower β} {fact more : LowerState → Prop} (first : Leaves m promised step fun _ => fact)
    (second : ∀ a, Leaves m promised (next a) fun _ => more) :
    Leaves m promised (step >>= next) fun _ later => fact later ∧ more later :=
  (first.bind second).mono fun _ _ ⟨_, held, heldMore⟩ => ⟨held, heldMore⟩

/-- What the first step leaves. -/
theorem before {next : α → Lower β} (first : Leaves m promised step fact)
    (second : ∀ a, Has (NamesOnly m promised) (next a)) :
    Leaves m promised (step >>= next) fun _ later => ∃ a, fact a later :=
  (first.bind fun a => of_has (second a) (fun _ _ => True) fun _ _ => trivial).mono fun _ _ ⟨a, held, _⟩ => ⟨a, held⟩

/-- What the last step leaves. -/
theorem next {first : Lower β} {next : β → Lower α} [grows : Has (NamesOnly m promised) first]
    (second : ∀ b, Leaves m promised (next b) fact) : Leaves m promised (first >>= next) fact :=
  ((of_has grows (fun _ _ => True) fun _ _ => trivial).bind second).mono fun _ _ ⟨_, _, held⟩ => held

/-- As `next`, with something known of the result of the first step. -/
theorem next_of {first : Lower β} {next : β → Lower α} {known : β → Prop}
    (gives : Leaves m promised first fun b _ => known b) (second : ∀ b, known b → Leaves m promised (next b) fact) :
    Leaves m promised (first >>= next) fact := by
  intro s a u ran
  obtain ⟨b, t, ran, rest⟩ := run_bind_eq_ok.mp ran
  obtain ⟨grows, held⟩ := gives s b t ran
  exact (second b (held t (.refl t)) t a u rest).imp_left grows.trans

theorem optionMapM {found : Option α} (each : ∀ a, Has (NamesOnly m promised) (f a)) :
    Leaves m promised (found.mapM f) fun result _ => result.isSome = found.isSome := by
  cases found with
  | none =>
    intro s b t ran
    cases ran
    exact ⟨.refl _, fun _ _ => rfl⟩
  | some a =>
    intro s b t ran
    obtain ⟨⟨word, u⟩, first, same⟩ := bind_eq_ok.mp ran
    cases same
    exact ⟨(each a).has s word t first, fun _ _ => rfl⟩

theorem check_next {read : Except Fault β} {next : β → Lower α}
    (second : ∀ b, read = .ok b → Leaves m promised (next b) fact) :
    Leaves m promised (Lower.check read >>= next) fact := by
  cases read with
  | error fault => exact fail_bind
  | ok b => exact second b rfl

theorem mapM (each : ∀ a ∈ list, Leaves m promised (f a) fun _ => fact a) :
    Leaves m promised (list.mapM f) fun _ later => ∀ a ∈ list, fact a later := by
  induction list with
  | nil =>
    rw [mapM_nil]
    exact of_has .pure _ fun _ _ a member => absurd member not_mem_nil
  | cons a rest ih =>
    rw [mapM_cons]
    have others := ih fun b member => each b (.tail _ member)
    refine ((each a (.head _)).bind fun b => others.before fun _ => .pure).mono ?_
    rintro _ later ⟨_, here, _, there⟩
    exact forall_mem_cons.mpr ⟨here, there⟩

theorem forM {f : α → Lower Unit}
    (each : ∀ a ∈ list, Leaves m promised (f a) fun _ => fact a) :
    Leaves m promised (list.forM f) fun _ later => ∀ a ∈ list, fact a later := by
  induction list with
  | nil => exact of_has .pure _ fun _ _ a member => absurd member not_mem_nil
  | cons a rest ih =>
    refine ((each a (.head _)).bind fun _ => ih fun b member => each b (.tail _ member)).mono ?_
    rintro _ later ⟨_, here, there⟩
    exact forall_mem_cons.mpr ⟨here, there⟩

/-- The step that gives a subject its id comes before steps that rely on its promise. -/
theorem naming {next : Word → Lower β} {fact : Word → β → LowerState → Prop}
    (identifies : Leaves m promised first fun id later => later.HasId subject id)
    (second : ∀ id, Leaves m (fun other word => (other = subject ∧ word = id) ∨ promised other word) (next id)
      (fact id)) :
    Leaves m promised (first >>= next) fun b later => ∃ id, later.HasId subject id ∧ fact id b later := by
  intro s b u ran
  obtain ⟨id, t, ran, rest⟩ := run_bind_eq_ok.mp ran
  obtain ⟨grows, has⟩ := identifies s id t ran
  obtain ⟨growsMore, held⟩ := second id t b u rest
  refine ⟨grows.trans (growsMore.redeem ?_), fun later extended =>
    ⟨id, has later (growsMore.kept.trans extended), held later extended⟩⟩
  rintro other word (⟨rfl, rfl⟩ | promise)
  · exact .inl (has u growsMore.kept)
  · exact .inr promise

/-- A subject gets an id and then its name. -/
theorem named {next : Word → Lower β} (identifies : Leaves m promised first fun id later => later.HasId subject id)
    (second : ∀ id, Leaves m (fun other word => (other = subject ∧ word = id) ∨ promised other word) (next id)
      fun _ later => later.Shows m subject id) :
    Leaves m promised (first >>= next) fun _ later => later.Tells m subject :=
  (identifies.naming second).mono fun _ _ ⟨_, has, shows⟩ => shows.tells has

end Leaves

section
variable {m : Module} {promised : Subject → Word → Prop} {subject : Subject} {id : Word} {name : String}

/-- A name of a subject that is promised the id. -/
theorem leaves_naming {op : Opcode} (promise : promised subject id) (named : m.nameOf? subject = some name)
    (made : ∀ inst, Instruction.make op operands = .ok inst → inst = subject.naming id name) :
    Leaves m promised (add .names op operands) fun _ later => later.Shows m subject id := by
  intro s u t ran
  obtain ⟨inst, isMade, rfl⟩ := add_run ran
  rw [made inst isMade]
  have listed : (s.out.names.push (subject.naming id name)).toList = s.out.names.toList ++ [subject.naming id name] :=
    Array.toList_push
  refine ⟨⟨⟨Subset.refl _, Subset.refl _, Subset.refl _, ?_⟩, fun inst member => ?_, fun _ _ => .inl⟩,
    fun later extended other isOther => ?_⟩
  · exact listed ▸ subset_append_left ..
  · rcases mem_append.mp (listed ▸ member) with member | member
    · exact .inl member
    · exact .inr ⟨subject, id, name, named, .inr promise, mem_singleton.mp member⟩
  · cases named.symm.trans isOther
    exact extended.names (listed ▸ mem_append_right _ (mem_singleton_self _))

theorem leaves_nameId (promise : promised subject id) (named : m.nameOf? subject = some name)
    (whole : ∀ ref index, subject ≠ .member ref index) :
    Leaves m promised (nameId id name) fun _ later => later.Shows m subject id := by
  refine leaves_naming promise named fun inst made => ?_
  rw [Instruction.make_plain rfl rfl made]
  cases subject with
  | member ref index => exact absurd rfl (whole ref index)
  | function | value | struct => rfl

theorem leaves_unnamed {α : Type} {a : α} (unnamed : m.nameOf? subject = none) :
    Leaves m promised (pure a) fun _ later => later.Shows m subject id :=
  .of_has .pure _ fun _ _ name named => by cases unnamed.symm.trans named

theorem leaves_remember [DecidableEq κ] {key : κ}
    (held : ∀ s id, (key, id) ∈ (register.read s).entries → s.HasId subject id)
    (reads : ∀ s table, register.read (register.write table s) = table)
    (grows : ∀ (s : LowerState) id, s.NamesGrow m promised (register.write ((register.read s).insert key id) s)) :
    Leaves m promised (remember register key fresh) fun id later => later.HasId subject id := by
  intro s id t ran
  rcases remember_run ran with ⟨found, rfl⟩ | ⟨-, middle, ranFresh, rfl⟩
  · exact ⟨.refl _, fun _ extended => (held _ id (mem_of_find? found)).later extended⟩
  · have first := (Basic.fresh : Has (NamesOnly m promised) fresh).has s id middle ranFresh
    refine ⟨first.trans (grows middle id), fun _ extended => (held _ id ?_).later extended⟩
    rw [reads]
    exact mem_cons_self

theorem leaves_valueId (value : ValueId) :
    Leaves m promised (valueId m (.ssa value)) fun id later => later.HasId (.value value) id :=
  leaves_remember (fun _ _ held => held) (fun _ _ => rfl) fun _ _ =>
    .of_same rfl (Subset.refl _) (subset_cons_self ..) (Subset.refl _) fun _ _ declared => declared

theorem leaves_functionId (ref : FuncId) :
    Leaves m promised (functionId ref) fun id later => later.HasId (.function ref) id :=
  leaves_remember (fun _ _ held => held) (fun _ _ => rfl) fun _ _ =>
    .of_same rfl (subset_cons_self ..) (Subset.refl _) (Subset.refl _) fun _ _ declared => declared

end

section
variable {m : Module} {promised : Subject → Word → Prop} {ref : StructId} {definition : StructDef} {id : Word}
  {index : Nat} {member : Member}

theorem nameOf?_struct (declared : m.structDef ref = .ok definition) : m.nameOf? (.struct ref) = definition.name := by
  unfold Module.structDef at declared
  split at declared
  · cases declared
    simp [Module.nameOf?, *]
  · cases declared

theorem nameOf?_member (declared : m.structDef ref = .ok definition) (index : Nat) :
    m.nameOf? (.member ref index) = (definition.members[index]?).bind Member.name := by
  unfold Module.structDef at declared
  split at declared
  · cases declared
    simp [Module.nameOf?, *]
  · cases declared

/-- A struct and its members are promised the id, besides. -/
def promising (promised : Subject → Word → Prop) (ref : StructId) (id : Word) (subject : Subject) (word : Word) :
    Prop :=
  (subject.struct? = some ref ∧ word = id) ∨ promised subject word

theorem leaves_decorateMember (named : m.nameOf? (.member ref index) = member.name) :
    Leaves m (promising promised ref id) (decorateMember id index member) fun _ later =>
      later.Shows m (.member ref index) id := by
  unfold decorateMember
  extract_lets position decorateWith last
  have decorated (words : List Word) : Has (NamesOnly m (promising promised ref id)) (decorateWith words) :=
    has_add (by decide)
  have naming (u : Unit) : Leaves m (promising promised ref id) (last u) fun _ later =>
      later.Shows m (.member ref index) id := by
    dsimp only [last]
    split
    · rename_i name isNamed
      exact leaves_naming (.inl ⟨rfl, rfl⟩) (named.trans isNamed) fun _ => Instruction.make_plain rfl rfl
    · rename_i unnamed
      exact leaves_unnamed (Option.eq_none_iff_forall_ne_some.mpr fun name isNamed => unnamed name (named ▸ isNamed))
  clear_value decorateWith last
  refine .next fun _ => ?_
  split
  · split
    · exact .fail_bind
    · exact .next fun _ => .next fun _ => naming _
  · exact naming _

theorem leaves_declareStruct {typeIdOf : Ty → Lower Word}
    (typed : ∀ ty, Has (NamesOnly m (promising promised ref id)) (typeIdOf ty)) :
    Leaves m (promising promised ref id) (declareStruct m typeIdOf ref id) fun _ later =>
      ∀ subject, subject.struct? = some ref → later.Shows m subject id := by
  refine .check_next fun definition declared => ?_
  have position {member : Member} {index : Nat} (listed : (member, index) ∈ definition.members.zipIdx) :
      m.nameOf? (.member ref index) = member.name := by
    rw [nameOf?_member declared, mem_zipIdx_iff_getElem?.mp listed]
    rfl
  have each (pair : Member × Nat) (listed : pair ∈ definition.members.zipIdx) : Leaves m (promising promised ref id) (do
        let memberType ← typeIdOf pair.1.ty
        decorateMember id pair.2 pair.1
        return memberType) fun _ later => later.Shows m (.member ref pair.2) id :=
    .next fun memberType =>
      ((leaves_decorateMember (position listed)).before fun _ => .pure).mono fun _ _ ⟨_, shown⟩ => shown
  refine (@Leaves.bind _ _ _ _ _ _ _ (fun _ _ later => later.Shows m (.struct ref) id) (Leaves.mapM each)
    fun types => .next fun _ => ?_).mono ?_
  · extract_lets last
    have naming (u : Unit) : Leaves m (promising promised ref id) (last u) fun _ later =>
        later.Shows m (.struct ref) id := by
      dsimp only [last]
      split
      · rename_i name isNamed
        exact leaves_nameId (.inl ⟨rfl, rfl⟩) ((nameOf?_struct declared).trans isNamed) (by simp)
      · rename_i unnamed
        refine leaves_unnamed (Option.eq_none_iff_forall_ne_some.mpr fun name isNamed => unnamed name ?_)
        rw [← nameOf?_struct declared, isNamed]
    clear_value last
    exact .of_ite (fun _ => .next fun _ => naming _) fun _ => naming _
  · rintro _ later ⟨_, members, whole⟩ subject part
    cases subject with
    | function | value => cases part
    | struct =>
      cases part
      exact whole
    | member other index =>
      cases part
      intro name named
      rw [nameOf?_member declared] at named
      obtain ⟨member, found, isNamed⟩ := Option.bind_eq_some_iff.mp named
      refine members (member, index) (mem_zipIdx_iff_getElem?.mpr found) name ?_
      rw [nameOf?_member declared, named]

/-- A struct gets its id when its members have theirs and all the names are written. -/
theorem has_struct {depth : Nat} (typed : ∀ ref, Has (NamesOnly m promised) (structTypeWithin m depth ref)) :
    Has (NamesOnly m promised) (structTypeWithin m (depth + 1) ref) := by
  refine ⟨fun s id t ran => ?_⟩
  rcases remember_run ran with ⟨-, rfl⟩ | ⟨-, middle, ranMake, rfl⟩
  · exact .refl _
  obtain ⟨⟨word, start⟩, ranFresh, rest⟩ := bind_eq_ok.mp ranMake
  obtain ⟨⟨_, finish⟩, ranDeclare, same⟩ := bind_eq_ok.mp rest
  cases same
  have promisedTyped (other : StructId) :
      Has (NamesOnly m (promising promised ref id)) (structTypeWithin m depth other) :=
    ⟨fun s a t ran => ((typed other).has s a t ran).mono fun _ _ => .inr⟩
  have first : s.NamesGrow m (promising promised ref id) start :=
    (Basic.fresh : Has (NamesOnly m _) fresh).has s id start ranFresh
  have memberTyped (ty : Ty) :
      Has (NamesOnly m (promising promised ref id)) (typeIdWith (structTypeWithin m depth) ty) := has_typeIdWith
  obtain ⟨second, shown⟩ := leaves_declareStruct memberTyped start () middle ranDeclare
  have kept : middle.Retains (Register.types.write ((Register.types.read middle).insert (.struct ref) id) middle) :=
    ⟨Subset.refl _, Subset.refl _, subset_cons_self .., Subset.refl _⟩
  have entered : middle.NamesGrow m (promising promised ref id)
      (Register.types.write ((Register.types.read middle).insert (.struct ref) id) middle) := by
    refine ⟨kept, fun _ listed => .inl listed, fun other word declared => ?_⟩
    rcases mem_cons.mp declared with same | declared
    · cases same
      exact .inr (shown _ kept)
    · exact .inl declared
  refine ((first.trans second).trans entered).redeem ?_
  rintro subject word (⟨part, rfl⟩ | promise)
  · cases subject with
    | function | value => cases part
    | struct | member =>
      cases part
      exact .inl mem_cons_self
  · exact .inr promise

instance : HoldsOverTypes m (NamesOnly m promised) := ⟨has_struct⟩

end

section
variable {m : Module} {promised : Subject → Word → Prop} {inst : Inst} {value : ValueId}
variable {options : Options} {declaration : Variable}

theorem nameOf?_value {found : ValueDef} (known : m.value value = .ok found) :
    m.nameOf? (.value value) = found.name := by
  unfold Module.value at known
  split at known
  · cases known
    simp [Module.nameOf?, *]
  · cases known

theorem leaves_unnamed_value {α : Type} {a : α} (unnamed : m.nameOf? (.value value) = none) :
    Leaves m promised (pure a) fun _ later => later.Tells m (.value value) :=
  .of_has .pure _ fun _ _ name named => by cases unnamed.symm.trans named

theorem leaves_nameResults : Leaves m promised (nameResults m inst) fun _ later =>
    ∀ result ∈ inst.results, later.Tells m (.value result) := by
  refine .forM fun result _ => .check_next fun name known => ?_
  obtain ⟨found, isFound, same⟩ := bind_eq_ok.mp known
  cases same
  cases named : found.name with
  | none => exact leaves_unnamed_value ((nameOf?_value isFound).trans named)
  | some name =>
    exact (leaves_valueId result).named fun id =>
      leaves_nameId (.inl ⟨rfl, rfl⟩) ((nameOf?_value isFound).trans named) (by simp)

instance : HoldsOverValues m (fun _ => True) (NamesOnly m promised) where
  emit _ _ _ := .of_view fun s u t ran => by
    obtain ⟨code, inst, -, -, rfl⟩ := emit_run ran
    rfl
  emitLocal _ := .of_view fun s u t ran => by
    obtain ⟨code, inst, -, -, rfl⟩ := emitLocal_run ran
    rfl
  requireExtension name := .modify_unseen fun s => by
    dsimp only [Assembly.pushExtension]
    split <;> rfl
  labelId _ := .remember_unseen
  mergeId _ := .remember_unseen
  functionId ref := (leaves_functionId ref).has
  extendedSetId := by
    have imports (op : Opcode) (operands : List Operand) : Has (NamesOnly m promised) (add .imports op operands) :=
      has_add (by decide)
    exact .remember_unseen
  wordConstantId _ := has_wordConstantId
  typeId _ _ := has_typeId
  nullId _ _ := has_nullId
  undefId _ _ := has_undefId
  splats _ _ _ _ _ := has_internSplats fun _ => has_intern
  typeOf := has_typeOf_any
  constantId _ := has_constantId
  definedId value := (leaves_valueId value).has
  enterValue _ _ := ⟨fun s u t ran => by
    cases ran
    exact .of_same rfl (Subset.refl _) (subset_cons_self ..) (Subset.refl _) fun _ _ held => held⟩
  nameResults _ := leaves_nameResults.has

/-- A variable is named by the id that it got at first. -/
theorem leaves_declareVariable {id : InstId} {result : ValueId}
    (defined : inst.result? = some result) : Leaves m promised (declareVariable m options id inst declaration)
      fun _ later => later.Tells m (.value result) := by
  have resultOf_eq : resultOf inst = pure result := by rw [resultOf, defined]
  have identifies : Leaves m promised (resultId m inst) fun word later => later.HasId (.value result) word := by
    rw [resultId, resultOf_eq]
    exact leaves_valueId result
  refine identifies.named fun word => ?_
  rw [resultOf_eq, pure_bind]
  refine .check_next fun found known => ?_
  have global (typeWord storage : Word) (initializer : Option Word) :
      Has (NamesOnly m fun other id => (other = .value result ∧ id = word) ∨ promised other id)
        (declareGlobal word typeWord storage initializer) := has_declare
  generalize found.ty = pointer
  cases pointer with
  | pointer space store access =>
    refine .of_ite (fun _ => .fail_bind) fun _ => .next fun typeWord => ?_
    extract_lets last
    have naming (u : Unit) : Leaves m (fun other id => (other = .value result ∧ id = word) ∨ promised other id)
        (last u) fun _ later => later.Shows m (.value result) word := by
      refine .check_next fun value known => ?_
      cases named : value.name with
      | none => exact leaves_unnamed ((nameOf?_value known).trans named)
      | some name => exact leaves_nameId (.inl ⟨rfl, rfl⟩) ((nameOf?_value known).trans named) (by simp)
    clear_value last
    cases space with
    | functionLocal | pushConstant => exact .next naming
    | undefined => exact naming _
    | input | output =>
      dsimp only
      split
      · exact .next fun _ => .next fun _ => .next fun _ => .next naming
      · exact .next fun _ => .next fun _ => .next naming
    | handle | storage | uniform => exact .next fun _ => .next fun _ => .next naming
    | privateLocal =>
      dsimp only
      split
      · exact .next fun _ => .next naming
      · exact .fail_bind
      · exact .next fun _ => .next naming
    | workgroup =>
      dsimp only
      split <;> exact .next fun _ => .next naming
  | _ => exact .fail

instance : DeclaringVariables m options (NamesOnly m promised) where
  declareVariable id inst declaration := by
    cases defined : inst.result? with
    | some result => exact (leaves_declareVariable defined).has
    | none =>
      have stuck : declareVariable m options id inst declaration = fail (.noResult inst.kind.name) := by
        unfold declareVariable resultId resultOf
        rw [defined]
        rfl
      rw [stuck]
      exact .fail rfl

theorem leaves_variable {id : InstId} (kind : inst.kind = .var declaration) :
    Leaves m promised (declareVariable m options id inst declaration) fun _ later =>
      ∀ result ∈ inst.named, later.Tells m (.value result) := by
  rw [Inst.named, kind]
  cases defined : inst.result? with
  | none => exact .of_has inferInstance _ fun _ _ result member => absurd member not_mem_nil
  | some result =>
    refine (leaves_declareVariable defined).mono fun _ later told other member => ?_
    cases mem_singleton.mp member
    exact told

theorem leaves_emitParameter {param : ValueId} :
    Leaves m promised (emitParameter m param) fun _ later => later.Tells m (.value param) := by
  refine (leaves_valueId param).named fun id => .check_next fun value known => .next fun typeWord =>
    .next fun declaration => ?_
  cases named : value.name with
  | none => exact leaves_unnamed ((nameOf?_value known).trans named)
  | some name =>
    exact ((leaves_nameId (.inl ⟨rfl, rfl⟩) ((nameOf?_value known).trans named) (by simp)).before
      fun _ => .pure).mono fun _ _ ⟨_, shows⟩ => shows

instance : HoldsOverFunctions (NamesOnly m promised) where
  executionMode _ := has_add (by decide)
  entryPoint _ := has_add (by decide)
  signatureId _ := .remember_unseen
  start _ := .modify_unseen fun _ => rfl
  finish := .modify_unseen fun s => by
    dsimp only
    cases s.code <;> rfl

end

/-- The values are named that are defined in the block and in the blocks lowered with it. -/
def BlockTold (m : Module) (block : BlockId) (s : LowerState) : Prop :=
  ∀ inner, m.LoweredFrom block inner → ∀ id ∈ m.instsOf inner, ∀ inst, m.inst id = .ok inst →
    ∀ result ∈ inst.named, s.Tells m (.value result)

section
variable {m : Module} {promised : Subject → Word → Prop} {options : Options} {scopes : Scopes} {id : InstId}
  {inst : Inst} {block : BlockId} {body : Scopes → BlockId → Lower Unit}

theorem blockTold_of_empty {b : Block} (found : m.block block = .ok b) (empty : b.insts.isEmpty = true)
    (s : LowerState) : BlockTold m block s := by
  have none : b.insts = [] := isEmpty_iff.mp empty
  intro inner lowered id member
  cases lowered with
  | refl =>
    rw [Module.instsOf_eq found, none] at member
    cases member
  | inside found' listed =>
    cases found.symm.trans found'
    rw [none] at listed
    cases listed

variable (told : ∀ scopes block, Leaves m promised (body scopes block) fun _ => BlockTold m block)

include told

theorem leaves_emitBlock : Leaves m promised (emitBlock m body scopes block) fun _ => BlockTold m block := by
  refine .next fun label => .next fun _ => .check_next fun b found => .of_ite (fun empty => ?_) fun _ => ?_
  · refine .of_has ?_ _ fun _ later => blockTold_of_empty found empty later
    split <;> infer_instance
  · exact .of_ite (fun _ => .next fun _ => told scopes block) fun _ => told scopes block

theorem leaves_emitConditional {c : Conditional} (kind : inst.kind = .conditional c) :
    Leaves m promised (emitConditional m body scopes id inst c) fun _ later =>
      ∀ child, m.Opens inst child → BlockTold m child later := by
  have grows (scopes : Scopes) (block : BlockId) := (told scopes block).has
  refine .next fun merge => .check_next fun emitTrue trueNeeded => .check_next fun emitFalse falseNeeded => ?_
  have opened (later : LowerState) (whenTrue : emitTrue = true → BlockTold m c.whenTrue later)
      (whenFalse : emitFalse = true → BlockTold m c.whenFalse later) (child : BlockId) (opens : m.Opens inst child) :
      BlockTold m child later := by
    cases opens with
    | @branch c' _ isConditional either needed =>
      cases kind.symm.trans isConditional
      rcases either with rfl | rfl
      · cases trueNeeded.symm.trans needed
        exact whenTrue rfl
      · cases falseNeeded.symm.trans needed
        exact whenFalse rfl
    | initializer other | body other | continuing other | case other => cases kind.symm.trans other
  cases emitTrue <;> cases emitFalse <;> simp only [if_true, Bool.false_eq_true, if_false]
  all_goals refine .next fun _ => .next fun _ => .next fun _ => .next fun _ => .next fun _ => ?_
  · exact .of_has inferInstance _ fun _ later => opened later (by simp) (by simp)
  · refine ((leaves_emitBlock told).before fun _ => inferInstance).mono fun _ later => ?_
    rintro ⟨_, here⟩
    exact opened later (by simp) fun _ => here
  · refine ((leaves_emitBlock told).before fun _ => inferInstance).mono fun _ later => ?_
    rintro ⟨_, here⟩
    exact opened later (fun _ => here) (by simp)
  · refine ((leaves_emitBlock told).bind fun _ => (leaves_emitBlock told).before fun _ => inferInstance).mono
      fun _ later => ?_
    rintro ⟨_, here, _, there⟩
    exact opened later (fun _ => here) fun _ => there

theorem leaves_emitLoop {l : Loop} (kind : inst.kind = .loop l) :
    Leaves m promised (emitLoop m body scopes id inst l) fun _ later =>
      ∀ child, m.Opens inst child → BlockTold m child later := by
  have grows (scopes : Scopes) (block : BlockId) := (told scopes block).has
  refine (Leaves.optionMapM fun _ => inferInstance).next_of fun initial known => .next fun bodyLabel =>
    .next fun continuing => .next fun header => .next fun merge => ?_
  extract_lets inner merged entered
  have after (u : Unit) : Has (NamesOnly m promised) (merged u) := .next fun _ => inferInstance
  have within (u : Unit) : Leaves m promised (entered u) fun _ later => BlockTold m l.body later ∧
      ∀ terminator, m.terminator? l.continuing = .ok (some terminator) → BlockTold m l.continuing later := by
    clear_value merged
    refine .next fun _ => .next fun _ => .next fun _ => .next fun _ => .next fun _ => ?_
    refine (told inner l.body).both fun _ =>
      (.check_next fun terminator ended => .of_ite (fun isEnded => ?_) fun notEnded => ?_)
    · exact ((leaves_emitBlock told).before fun _ => after _).mono fun _ _ ⟨_, here⟩ _ _ => here
    · refine .of_has inferInstance _ fun _ later found same => ?_
      cases ended.symm.trans same
      exact absurd rfl notEnded
  clear_value entered
  have opened (later : LowerState) (initial : ∀ block, l.initializer = some block → BlockTold m block later)
      (rest : BlockTold m l.body later ∧
        ∀ terminator, m.terminator? l.continuing = .ok (some terminator) → BlockTold m l.continuing later)
      (child : BlockId) (opens : m.Opens inst child) : BlockTold m child later := by
    cases opens with
    | initializer isLoop first =>
      cases kind.symm.trans isLoop
      exact initial _ first
    | body isLoop =>
      cases kind.symm.trans isLoop
      exact rest.1
    | continuing isLoop ended =>
      cases kind.symm.trans isLoop
      exact rest.2 _ ended
    | branch other | case other => cases kind.symm.trans other
  cases first : l.initializer with
  | none => exact .next fun _ => (within _).mono fun _ later => opened later (by simp [first])
  | some block =>
    rw [first] at known
    obtain ⟨label, rfl⟩ := Option.isSome_iff_exists.mp known
    refine .next fun _ => ((leaves_emitBlock told).both within).mono fun _ later held => ?_
    refine opened later (fun other same => ?_) held.2
    cases first.symm.trans same
    exact held.1

theorem leaves_emitSwitch {s : Switch} (kind : inst.kind = .switch s) :
    Leaves m promised (emitSwitch m body scopes id inst s) fun _ later =>
      ∀ child, m.Opens inst child → BlockTold m child later := by
  have grows (scopes : Scopes) (block : BlockId) := (told scopes block).has
  refine .check_next fun standard _ => .next fun label => .next fun condition => .next fun cases =>
    .next fun merge => .next fun _ => .next fun _ => ?_
  refine ((Leaves.forM fun case _ => leaves_emitBlock told).before fun _ => inferInstance).mono fun _ later => ?_
  rintro ⟨_, each⟩ child opens
  cases opens with
  | case isSwitch member =>
    cases kind.symm.trans isSwitch
    exact each _ member
  | initializer other | body other | continuing other | branch other => cases kind.symm.trans other

theorem leaves_emitKind : Leaves m promised (emitKind m options body scopes id inst) fun _ later =>
    ∀ child, m.Opens inst child → BlockTold m child later := by
  have grows (scopes : Scopes) (block : BlockId) := (told scopes block).has
  unfold emitKind
  cases kind : inst.kind with
  | conditional c => exact leaves_emitConditional told kind
  | loop l => exact leaves_emitLoop told kind
  | switch s => exact leaves_emitSwitch told kind
  | _ =>
    refine .of_has inferInstance _ fun _ later child opens => ?_
    have control := opens.isControl
    rw [kind] at control
    cases control

theorem leaves_emitInst : Leaves m promised (emitInst m options body scopes id) fun _ later =>
    ∀ inst, m.inst id = .ok inst → (∀ result ∈ inst.named, later.Tells m (.value result)) ∧
      ∀ child, m.Opens inst child → BlockTold m child later := by
  refine .check_next fun inst held => ?_
  have whole {later : LowerState} (results : ∀ result ∈ inst.named, later.Tells m (.value result))
      (children : ∀ child, m.Opens inst child → BlockTold m child later) (other : Inst)
      (found : m.inst id = .ok other) :
      (∀ result ∈ other.named, later.Tells m (.value result)) ∧
        ∀ child, m.Opens other child → BlockTold m child later := by
    cases held.symm.trans found
    exact ⟨results, children⟩
  cases kind : inst.kind with
  | var declaration =>
    have nothing (later : LowerState) (child : BlockId) (opens : m.Opens inst child) : BlockTold m child later := by
      have control := opens.isControl
      rw [kind] at control
      cases control
    rw [emitKind, kind]
    refine ((leaves_variable kind).before fun _ => .pure).mono fun _ later => ?_
    rintro ⟨_, named⟩
    exact whole named (nothing later)
  | _ =>
    refine ((leaves_emitKind told).both fun _ => leaves_nameResults).mono fun _ later both => whole ?_ both.1
    rw [Inst.named, kind]
    exact both.2

omit told in
theorem leaves_emitBodyWithin {depth : Nat} :
    Leaves m promised (emitBodyWithin m options depth scopes block) fun _ => BlockTold m block := by
  induction depth generalizing scopes block with
  | zero => exact .fail
  | succ depth ih =>
    refine .check_next fun b found => ?_
    refine ((Leaves.forM fun id _ => leaves_emitInst fun _ _ => ih).before fun _ => inferInstance).mono ?_
    rintro _ later ⟨_, each⟩ inner lowered id member inst held
    cases lowered with
    | refl =>
      rw [Module.instsOf_eq found] at member
      exact (each id member inst held).1
    | inside found' listed isHeld opens rest =>
      cases found.symm.trans found'
      exact (each _ listed _ isHeld).2 _ opens inner rest id member inst held

end

section
variable {m : Module} {promised : Subject → Word → Prop} {options : Options}

/-- The values are named that the root declares. -/
theorem leaves_emitRoot : Leaves m promised (emitRoot m options) fun _ later =>
    ∀ id ∈ m.instsOf .root, ∀ inst, m.inst id = .ok inst → ∀ result ∈ inst.named, later.Tells m (.value result) := by
  refine .check_next fun root found => ?_
  rw [Module.instsOf_eq found]
  refine .forM fun id _ => .check_next fun inst held => ?_
  cases kind : inst.kind with
  | var declaration =>
    refine (leaves_variable kind).mono fun _ later named other same => ?_
    cases held.symm.trans same
    exact named
  | _ => exact .fail

/-- What is named inside a function. -/
def InsideTold (m : Module) (function : Function) (s : LowerState) : Prop :=
  (∀ param ∈ function.params, s.Tells m (.value param)) ∧ BlockTold m function.entry s

theorem nameOf?_function {ref : FuncId} {function : Function} (declared : m.function ref = .ok function) :
    m.nameOf? (.function ref) = some function.name := by
  unfold Module.function at declared
  split at declared
  · cases declared
    simp [Module.nameOf?, *]
  · cases declared

theorem leaves_emitFunction {ref : FuncId} : Leaves m promised (emitFunction m options ref) fun _ later =>
    later.Tells m (.function ref) ∧ ∀ function, m.function ref = .ok function → InsideTold m function later := by
  refine .check_next fun function declared => .of_ite (fun _ => .throw_bind) fun _ => ?_
  refine ((leaves_functionId ref).naming fun id => @Leaves.both _ _ _ _ _ _ _ (InsideTold m function)
    (leaves_nameId (.inl ⟨rfl, rfl⟩) (nameOf?_function declared) (by simp)) fun _ => ?_).mono ?_
  · extract_lets rest
    have last (u : Unit) : Leaves m (fun other word => (other = .function ref ∧ word = id) ∨ promised other word)
        (rest u) fun _ => InsideTold m function := by
      refine .next fun returnType => (Leaves.mapM fun param _ => leaves_emitParameter).both fun params => ?_
      refine .next fun signature => .next fun declaration => .next fun label => .check_next fun code started => ?_
      have begins := @HoldsOverFunctions.start (NamesOnly m fun other word =>
        (other = .function ref ∧ word = id) ∨ promised other word) _ _ _ _ _ started
      refine .next fun _ => (leaves_emitBodyWithin.before fun _ => inferInstance).mono fun _ _ ⟨_, told⟩ => told
    clear_value rest
    exact .of_ite (fun _ => .next last) fun _ => last _
  · rintro _ later ⟨id, has, shows, inside⟩
    refine ⟨shows.tells has, fun other same => ?_⟩
    cases declared.symm.trans same
    exact inside

end

end Lower
end Shader
