import Shader.Proofs.Lowering.Interning

/-!
The table of types, as types are asked for.

A type that is asked for the first time gets a new id, and the types it is made of are asked for before its
declaration is added. None of them can be the type itself: a type that is in the table is made of types that are in
it, down to types that are made of none, so a declaration that comes to an end was not needed on the way.
-/
namespace Shader

open List Shader.Module

/-- An image is made of the type of its texels. -/
theorem Module.components_image {m : Module} {ty sampled : Ty} {use : Lower.ImageUse} {dim : TextureDim}
    (used : ty.image? = some (use, dim, sampled)) : m.components ty = [sampled] := by
  cases ty <;> simp_all [Ty.image?, components]

namespace LowerState

open Binary Relation

theorem SameDeclarations.trans {s t u : LowerState} (first : s.SameDeclarations t) (second : t.SameDeclarations u) :
    s.SameDeclarations u where
  entryPoints := second.entryPoints.trans first.entryPoints
  globals := second.globals.trans first.globals
  annotations := second.annotations.trans first.annotations
  types := second.types.trans first.types
  signatures := second.signatures.trans first.signatures
  constants := second.constants.trans first.constants
  nulls := second.nulls.trans first.nulls
  undefs := second.undefs.trans first.undefs
  next := first.next.trans second.next
  pool := first.pool.trans second.pool

variable {m : Module} {s t : LowerState} {ty : Ty} {id : Word} {inst : Instruction}

theorem Describes.isType (describes : Describes m s id ty inst) : inst.op.isType = true := by
  cases describes <;> rfl

/-- The types that a type is made of are in the table. -/
theorem Describes.component (describes : Describes m s id ty inst) {part : Ty} (component : m.Component part ty) :
    ∃ word, (part, word) ∈ s.types.entries := by
  obtain ⟨component, member, rfl⟩ := component
  cases describes with
  | void | bool | i32 | u32 | f32 | f16 | sampler => simp [components, Ty.image?] at member
  | vector typed | matrix typed | runtimeArray typed | pointer typed | sampledImage typed =>
    rw [mem_singleton.mp member]
    exact ⟨_, typed⟩
  | array typed counted =>
    obtain ⟨word, numeric, -⟩ := counted
    rcases mem_pair.mp member with rfl | rfl
    · exact ⟨_, typed⟩
    · exact ⟨_, numeric⟩
  | struct defined typed =>
    simp only [components, defined] at member
    obtain ⟨held, among, rfl⟩ := mem_map.mp member
    obtain ⟨word, -, memberType⟩ := forall₂_mem_right typed.flip among
    exact ⟨word, memberType⟩
  | image used typed =>
    rw [components_image used] at member
    rw [mem_singleton.mp member]
    exact ⟨_, typed⟩

theorem Interned.declared (start : Interned m s) (typed : (ty, id) ∈ s.types.entries) : s.declarations id ≠ [] := by
  obtain ⟨inst, declared, -⟩ := (start.types _ typed).declared
  simp [declared]

theorem Interned.declared_null (start : Interned m s) (held : (ty, id) ∈ s.nulls.entries) : s.declarations id ≠ [] := by
  obtain ⟨typeWord, -, declared⟩ := start.nulls _ held
  simp [declared]

/-- The declaration of a type refers to what is declared. -/
theorem Describes.refers (describes : Describes m s id ty inst) (start : Interned m s) :
    ∀ ref ∈ inst.references, s.declarations ref ≠ [] := by
  intro ref member
  cases describes with
  | void | bool | i32 | u32 | f32 | f16 | sampler => cases member
  | vector typed | matrix typed | runtimeArray typed | pointer typed | sampledImage typed | image _ typed =>
    rw [mem_singleton.mp member]
    exact start.declared typed
  | array typed counted =>
    obtain ⟨word, -, numeric⟩ := counted
    rcases mem_pair.mp member with rfl | rfl
    · exact start.declared typed
    · simp [numeric]
  | @struct _ _ parts defined typed =>
    have among : ref ∈ parts := by simpa [Instruction.references, Operand.reference?] using member
    obtain ⟨member, -, memberType⟩ := forall₂_mem_right typed among
    exact start.declared memberType

theorem Describes.grounded (describes : Describes m s id ty inst) (start : Interned m s) : Acc m.Component ty := by
  refine ⟨_, fun part component => ?_⟩
  obtain ⟨word, typed⟩ := describes.component component
  exact (start.types _ typed).grounded

end LowerState
end Shader

namespace Shader.Lower

open Binary List LowerState Relation Instruction Shader.Module

variable {s t : LowerState} {key : Ty} {constant : ConstId}
variable {before : List Instruction}

instance : Coarse SameDeclarations where
  trans := .trans
  same same := same

/-- From a state where `known` holds the step keeps the tables as they have to be, and it `gives` what holds then. -/
def Settles {α : Type} (m : Module) (opened : List Word) (keys : Ty → Prop) (known : LowerState → Prop)
    (step : Lower α) (gives : α → LowerState → Prop) : Prop :=
  ∀ s a t, Interned m s → known s → step.run s = .ok (a, t) → Interned m t ∧ Leads opened keys s t ∧ gives a t

namespace Settles

variable {α β : Type} {m : Module} {opened : List Word} {keys : Ty → Prop} {known : LowerState → Prop}
  {step : Lower α} {gives : α → LowerState → Prop}
variable {next : α → Lower β} {later : β → LowerState → Prop} {fewer : Ty → Prop}

theorem mono {other : LowerState → Prop} {given : α → LowerState → Prop}
    (settles : Settles m opened keys known step given) (enough : ∀ s, other s → known s)
    (given : ∀ a s, given a s → gives a s) : Settles m opened keys other step gives := by
  intro s a t start held ran
  obtain ⟨finish, leads, found⟩ := settles s a t start (enough s held) ran
  exact ⟨finish, leads, given a t found⟩

/-- What the state after the step is besides, as the tables are as they have to be. -/
theorem finish [lasting : Lasting opened known] {later : α → LowerState → Prop}
    (settles : Settles m opened keys known step gives)
    (given : ∀ a s, Interned m s → known s → gives a s → later a s) : Settles m opened keys known step later := by
  intro s a t start held ran
  obtain ⟨finish, leads, found⟩ := settles s a t start held ran
  exact ⟨finish, leads, given a t finish (lasting.keep leads held) found⟩

/-- A step that declares nothing. -/
theorem of_same (same : ∀ s a t, known s → step.run s = .ok (a, t) → s.SameDeclarations t ∧ gives a t) :
    Settles m opened keys known step gives := by
  intro s a t start held ran
  obtain ⟨same, found⟩ := same s a t held ran
  have alike : Alike 0 [] s t := .of_same same
  exact ⟨alike.interned_nil start, alike.leads_nil start, found⟩

theorem pure {a : α} (given : ∀ s, known s → gives a s) : Settles m opened keys known (pure a) gives := by
  refine of_same fun s b t held ran => ?_
  cases ran
  exact ⟨.refl s, given s held⟩

theorem fail (fault : Fault) : Settles m opened keys known (Lower.fail fault) gives := by
  intro s a t _ _ ran
  cases ran

theorem fail_bind (fault : Fault) {next : β → Lower α} :
    Settles m opened keys known (Lower.fail fault >>= next) gives := by
  intro s a t _ _ ran
  cases ran

theorem ite {condition : Prop} [Decidable condition] {other : Lower α}
    (yes : condition → Settles m opened keys known step gives)
    (no : ¬condition → Settles m opened keys known other gives) :
    Settles m opened keys known (if condition then step else other) gives := by
  split
  · exact yes ‹_›
  · exact no ‹_›

theorem bind (first : Settles m opened keys known step gives)
    (second : ∀ a, Settles m opened keys (gives a) (next a) later) :
    Settles m opened keys known (step >>= next) later := by
  intro s b u start held ran
  obtain ⟨a, t, ran, rest⟩ := run_bind_eq_ok.mp ran
  obtain ⟨middle, early, found⟩ := first s a t start held ran
  obtain ⟨finish, late, after⟩ := second a t b u middle found rest
  exact ⟨finish, early.trans late, after⟩

/-- A step that opens no id leaves what is known as it is. -/
theorem after [lasting : Lasting [] known] (first : Settles m [] fewer (fun _ => True) step gives)
    (under : ∀ ty, fewer ty → keys ty)
    (second : ∀ a, Settles m opened keys (fun s => known s ∧ gives a s) (next a) later) :
    Settles m opened keys known (step >>= next) later := by
  refine bind (fun s a t start held ran => ?_) second
  obtain ⟨finish, leads, found⟩ := first s a t start trivial ran
  exact ⟨finish, leads.mono (nil_subset _) under, lasting.keep leads held, found⟩

/-- As `after`, where what is known of an open id is kept apart. -/
theorem after_pending {id : Word} [Lasting [] known] (first : Settles m [] fewer (fun _ => True) step gives)
    (under : ∀ ty, fewer ty → keys ty)
    (second : ∀ a, Settles m opened keys (fun s => s.Pending id before ∧ known s ∧ gives a s) (next a) later) :
    Settles m opened keys (fun s => s.Pending id before ∧ known s) (step >>= next) later :=
  after first under fun a => (second a).mono (fun _ held => ⟨held.1.1, held.1.2, held.2⟩) fun _ _ held => held

/-- What lasts is known afterwards if it is before. -/
theorem frame (settles : Settles m opened keys known step gives) (fact : LowerState → Prop)
    [lasting : Lasting opened fact] :
    Settles m opened keys (fun s => known s ∧ fact s) step fun a s => gives a s ∧ fact s := by
  intro s a t start held ran
  obtain ⟨finish, leads, found⟩ := settles s a t start held.1 ran
  exact ⟨finish, leads, found, lasting.keep leads held.2⟩

/-- As `after`, for a step that declares nothing. -/
theorem quiet [Lasting [] known] [same : Respects SameDeclarations step]
    (second : ∀ a, Settles m opened keys known (next a) later) :
    Settles m opened keys known (step >>= next) later := by
  have first : Settles m [] (fun _ => False) (fun _ => True) step fun _ _ => True :=
    of_same fun s a t _ ran => ⟨same.run s a t ran, trivial⟩
  exact after first (fun _ none => none.elim) fun a s b t start held ran => second a s b t start held.1 ran

theorem check [Lasting [] known] {outcome : Except Fault α}
    (second : ∀ a, outcome = .ok a → Settles m opened keys known (next a) later) :
    Settles m opened keys known (Lower.check outcome >>= next) later := by
  cases outcome with
  | error fault =>
    intro s b t _ _ ran
    cases ran
  | ok a => exact second a rfl

end Settles

variable {m : Module} {keys : Ty → Prop} {known fact : LowerState → Prop} {id : Word}

/-- A new id is open. -/
theorem fresh_pending (start : Interned m s) (ran : fresh.run s = .ok (id, t)) :
    ¬s.Taken id ∧ s.SameDeclarations t ∧ t.Pending id [] := by
  have same : s.SameDeclarations t := Respects.fresh.run s id t ran
  have alike : Alike id [] s t := .of_same same
  have next := fresh_next ran
  obtain ⟨rfl, -, -⟩ := fresh_run ran
  have untaken : ¬s.Taken s.out.ids.next := Nat.lt_irrefl _
  obtain ⟨declarations, marks⟩ := start.blank _ untaken
  refine ⟨untaken, same, ⟨?_, fun entry member here => untaken ?_⟩, ?_, ?_⟩
  · rw [Taken]
    omega
  · rw [same.types] at member
    exact here ▸ (start.types entry member).taken
  · rw [alike.declarations, declarations]
  · rw [alike.marks_eq, marks]

/-- The id is declared as that of the type, and the type is laid out. -/
def Filled (m : Module) (key : Ty) (id : Word) (s : LowerState) : Prop :=
  (∃ inst, s.declarations id = [inst] ∧ Describes m s id key inst) ∧ s.marks id = m.layout id key

theorem interned_enter (start : Interned m s) (reserved : s.Reserved id) (filled : Filled m key id s)
    (normal : key.normal = key) (missing : ∀ word, (key, word) ∉ s.types.entries) :
    Interned m { s with types := s.types.insert key id } := by
  have extended : s.Extends { s with types := s.types.insert key id } :=
    { next := le_rfl
      pool := .refl _
      types := subset_cons_self ..
      constants := Subset.refl _
      nulls := Subset.refl _
      kept := fun _ _ => rfl }
  obtain ⟨⟨inst, declared, describes⟩, laidOut⟩ := filled
  have new : TypeAt m { s with types := s.types.insert key id } key id :=
    ⟨normal, reserved.1, describes.grounded start, ⟨inst, declared, describes.keep extended⟩, laidOut⟩
  refine ⟨start.blank, start.closed, start.ordered, start.reads, forall_mem_cons.mpr ⟨new, fun entry member => ?_⟩,
    fun entry member => (start.constants entry member).keep extended,
    fun entry member => (start.nulls entry member).keep extended, start.apart,
    nodup_cons.mpr ⟨fun member => ?_, start.keys⟩, nodup_cons.mpr ⟨fun member => ?_, start.ids⟩,
    start.named, start.bare⟩
  · exact (start.types entry member).keep extended rfl
  · obtain ⟨⟨_, word⟩, entered, rfl⟩ := mem_map.mp member
    exact missing word entered
  · obtain ⟨entry, member, same⟩ := mem_map.mp member
    exact reserved.2 entry member same

theorem leads_enter {fewer : Ty → Prop} (leads : Leads [id] fewer s t) (untaken : ¬s.Taken id)
    (under : ∀ ty, fewer ty → keys ty) (here : keys key) :
    Leads [] keys s { t with types := t.types.insert key id } where
  next := leads.next
  pool := leads.pool
  types _ member := mem_cons_of_mem _ (leads.types member)
  constants := leads.constants
  nulls := leads.nulls
  kept := leads.kept
  spared other taken _ := leads.spared other taken fun same => untaken (mem_singleton.mp same ▸ taken)
  entered entry member := by
    rcases mem_cons.mp member with rfl | member
    · exact .inr ⟨untaken, here⟩
    · exact (leads.entered entry member).imp_right fun new => ⟨new.1, under _ new.2⟩
  added other new _ inst member declares := by
    by_cases same : other = id
    · exact ⟨key, same ▸ mem_cons_self⟩
    · obtain ⟨ty, entered⟩ := leads.added other new (by simpa using same) inst member declares
      exact ⟨ty, mem_cons_of_mem _ entered⟩

/-- The step asks for a type in normal form. -/
def Requests (m : Module) (ty : Ty) (step : Lower Word) : Prop :=
  Settles m [] (fun key => ReflTransGen m.Component key ty) (fun _ => True) step fun id s => (ty, id) ∈ s.types.entries

/-- The step declares a type, whose id is open. -/
def Fills (m : Module) (key : Ty) (id : Word) (known : LowerState → Prop) (step : Lower Unit) : Prop :=
  Settles m [id] (fun part => TransGen m.Component part key) (fun s => s.Pending id [] ∧ known s) step
    fun _ => Filled m key id

theorem not_transGen_of_acc {α : Type} {r : α → α → Prop} {a : α} (grounded : Acc r a) : ¬TransGen r a a := by
  intro cycle
  have above := grounded.transGen
  clear grounded
  induction above with
  | intro a _ ih => exact ih a cycle cycle

/-- What a type is made of is not the type itself, so it gets one id. -/
theorem requests_declareType {declaration : Word → Lower Unit} (normal : key.normal = key)
    (fills : ∀ id, Fills m key id (fun _ => True) (declaration id)) : Requests m key (declareType key declaration) := by
  intro s id t start _ ran
  rcases remember_run ran with ⟨found, rfl⟩ | ⟨missing, middle, ranMake, rfl⟩
  · have alike : Alike id [] t t := .of_same (.refl _)
    exact ⟨start, alike.leads_nil start, mem_of_find? found⟩
  · obtain ⟨new, opened, ranFresh, ranRest⟩ := run_bind_eq_ok.mp ranMake
    obtain ⟨⟨⟩, filled, ranDeclaration, ranPure⟩ := run_bind_eq_ok.mp ranRest
    obtain ⟨rfl, rfl⟩ : new = id ∧ filled = middle := by
      cases ranPure
      exact ⟨rfl, rfl⟩
    obtain ⟨untaken, same, pending⟩ := fresh_pending start ranFresh
    have alike : Alike new [] s opened := .of_same same
    obtain ⟨finish, leads, declared⟩ :=
      fills new opened () filled (alike.interned_nil start) ⟨pending, trivial⟩ ranDeclaration
    have absent (word : Word) : (key, word) ∉ filled.types.entries := by
      intro member
      rcases leads.entered _ member with early | ⟨-, within⟩
      · rw [same.types] at early
        exact not_mem_of_find? missing word early
      · obtain ⟨⟨inst, -, describes⟩, -⟩ := declared
        exact not_transGen_of_acc (describes.grounded finish) within
    exact ⟨interned_enter finish (lasting_reserved.keep leads pending.reserved) declared normal absent,
      leads_enter ((alike.leads_nil start).trans leads) untaken (fun _ => TransGen.to_reflTransGen) .refl,
      mem_cons_self⟩

/-- The id of a constant is declared. -/
theorem Interned.declared_constant (start : Interned m s) (held : (constant, id) ∈ s.constants.entries) :
    s.declarations id ≠ [] := by
  cases start.constants _ held with
  | scalar _ _ declared | composite _ _ _ _ _ _ declared => simp [declared]
  | null _ _ _ null => exact start.declared_null null

/-- The id has a declaration, and it is neither that of a type nor that of a constant. -/
structure Stated (id : Word) (inst : Instruction) (before : List Instruction) (s : LowerState) : Prop where
  declarations : s.declarations id = [inst]
  marks : s.marks id = before
  reserved : s.Reserved id
  unshared : ∀ entry ∈ s.constants.entries, entry.2 ≠ id

section
variable [stays : ∀ opened, Lasting opened fact] {op : Opcode} {operands : List Operand} {inst : Instruction}

/-- The declaration of an open id. -/
theorem settles_declare (made : ∀ other, make op operands = .ok other → other = inst) (target : inst.target? = some id)
    (refers : ∀ s, Interned m s → fact s → ∀ ref ∈ inst.references, s.declarations ref ≠ []) :
    Settles m [id] keys (fun s => s.Pending id before ∧ fact s) (declare op operands)
      fun _ s => Stated id inst before s ∧ fact s := by
  intro s u t start held ran
  obtain ⟨other, instruction, pushed⟩ := add_run ran
  rw [made other instruction] at pushed
  obtain ⟨finish, leads, declared, marks⟩ :=
    held.1.declared start target (refers s start held.2) pushed
  have unshared : ∀ entry ∈ t.constants.entries, entry.2 ≠ id := by
    rw [pushed]
    intro entry member here
    exact Interned.declared_constant start member (here ▸ held.1.declarations)
  exact ⟨finish, leads, ⟨declared, marks, lasting_reserved.keep leads held.1.reserved, unshared⟩,
    (stays [id]).keep leads held.2⟩

/-- A new id that is declared as something other than a type. -/
theorem settles_fresh {α : Type} {next : Word → Lower α} {gives : α → LowerState → Prop} [lasting : Lasting [] known]
    (second : ∀ id, Settles m [id] keys (fun s => s.Pending id [] ∧ known s) (next id)
      fun a s => (∃ inst, s.declarations id = [inst] ∧ inst.op.isType = false) ∧ gives a s) :
    Settles m [] keys known (fresh >>= next) gives := by
  intro s a t start held ran
  obtain ⟨id, opened, ranFresh, ranRest⟩ := run_bind_eq_ok.mp ran
  obtain ⟨untaken, same, pending⟩ := fresh_pending start ranFresh
  have alike : Alike id [] s opened := .of_same same
  have early : Leads [] keys s opened := alike.leads_nil start
  obtain ⟨finish, late, ⟨inst, declared, other⟩, given⟩ :=
    second id opened a t (alike.interned_nil start) ⟨pending, lasting.keep early held⟩ ranRest
  have leads : Leads [id] keys s t := (early.mono (nil_subset _) fun _ held => held).trans late
  refine ⟨finish, { leads with spared := fun word taken _ => ?_, added := fun word new _ => ?_ }, given⟩
  · exact leads.spared word taken fun same => untaken (mem_singleton.mp same ▸ taken)
  · by_cases same : word = id
    · rw [same, declared]
      simp [other]
    · exact leads.added word new (by simpa using same)

end

theorem settles_remember {κ : Type} [DecidableEq κ] {register : Register κ} {key : κ} {make : Lower Word}
    {ready holds : Word → LowerState → Prop}
    (found : ∀ s id, (key, id) ∈ (register.read s).entries → holds id s)
    (entered : ∀ s id, Interned m s → ready id s → Interned m (register.write ((register.read s).insert key id) s) ∧
        Leads [] keys s (register.write ((register.read s).insert key id) s) ∧
        holds id (register.write ((register.read s).insert key id) s))
    (made : Settles m [] keys known make ready) :
    Settles m [] keys known (remember register key make) holds := by
  intro s id t start held ran
  rcases remember_run ran with ⟨present, rfl⟩ | ⟨-, middle, ranMake, rfl⟩
  · have alike : Alike id [] t t := .of_same (.refl _)
    exact ⟨start, alike.leads_nil start, found _ _ (mem_of_find? present)⟩
  · obtain ⟨between, early, prepared⟩ := made s id middle start held ranMake
    obtain ⟨finish, late, holds⟩ := entered middle id between prepared
    exact ⟨finish, early.trans late, holds⟩

/-- Entries into the tables of constants. -/
theorem leads_of_same_out {opened : List Word} (start : Interned m s) (out : t.out = s.out) (pool : t.pool = s.pool)
    (types : t.types = s.types) (constants : s.constants.entries ⊆ t.constants.entries)
    (nulls : s.nulls.entries ⊆ t.nulls.entries) : Leads opened keys s t := by
  have declarations : t.declarations = s.declarations := by
    funext id
    rw [LowerState.declarations, LowerState.declarations, out]
  exact
    { next := by rw [out]
      pool := pool ▸ .refl _
      types := by simp [types]
      constants := constants
      nulls := nulls
      kept := fun _ _ => by rw [declarations]
      spared := fun _ _ _ => ⟨by rw [declarations], by rw [marks, marks, out]⟩
      entered := fun _ member => .inl (types ▸ member)
      added := fun word new _ inst member => by
        rw [declarations, (start.blank word new).1] at member
        cases member }

/-- A constant that is new to the table has an id that no other one has, or the one of a null value. -/
theorem settles_remember_constant {make : Lower Word}
    (made : Settles m [] keys known make fun id s => ConstantAt m s constant id ∧
      ((∀ entry ∈ s.constants.entries, entry.2 ≠ id) ∨ ∃ ty, (ty, id) ∈ s.nulls.entries)) :
    Settles m [] keys known (remember .constants constant make) fun id s => (constant, id) ∈ s.constants.entries := by
  refine settles_remember (fun _ _ member => member) (fun s id start held => ?_) made
  have leads : Leads [] keys s { s with constants := s.constants.insert constant id } :=
    leads_of_same_out start rfl rfl rfl (subset_cons_self ..) (Subset.refl _)
  refine ⟨⟨start.blank, start.closed, start.ordered, start.reads, fun entry member => ?_, ?_,
    fun entry member => ?_, ?_,
    start.keys, start.ids, start.named, start.bare⟩, leads, mem_cons_self⟩
  · exact (start.types entry member).keep leads.toExtends rfl
  · exact forall_mem_cons.mpr ⟨held.1.keep leads.toExtends,
      fun entry member => (start.constants entry member).keep leads.toExtends⟩
  · exact (start.nulls entry member).keep leads.toExtends
  · have other (entry : ConstId × Word) (member : entry ∈ s.constants.entries) (same : entry.2 = id) :
        ∃ ty, (ty, id) ∈ s.nulls.entries := held.2.resolve_left fun unshared => unshared entry member same
    intro first early second late same
    rcases mem_cons.mp early with rfl | early <;> rcases mem_cons.mp late with rfl | late
    · exact .inl rfl
    · exact .inr (other second late same.symm)
    · exact .inr (same ▸ other first early same)
    · exact start.apart first early second late same

namespace Fills

variable {key : Ty}

/-- A step on the way to the declaration. -/
theorem after [Lasting [] known] {α : Type} {step : Lower α} {next : α → Lower Unit} {part : Ty}
    {gives : α → LowerState → Prop} (component : m.Component part key)
    (first : Settles m [] (fun key => ReflTransGen m.Component key part) (fun _ => True) step gives)
    (second : ∀ a, Fills m key id (fun s => known s ∧ gives a s) (next a)) :
    Fills m key id known (step >>= next) :=
  Settles.after_pending first (fun _ within => .tail' within component) second

/-- The declaration of a type that is not laid out. -/
theorem declare [∀ opened, Lasting opened known] {op : Opcode} {operands : List Operand} {inst : Instruction}
    (made : ∀ other, make op operands = .ok other → other = inst)
    (describes : ∀ s, known s → Describes m s id key inst) (target : inst.target? = some id)
    (plain : m.layout id key = []) : Fills m key id known (declare op operands) := by
  refine (settles_declare made target fun s start held => (describes s held).refers start).mono
    (fun _ held => held) fun _ s held => ?_
  exact ⟨⟨inst, held.1.declarations, describes s held.2⟩, held.1.marks.trans plain.symm⟩

end Fills

theorem requests_wordTypeId : Requests m .u32 wordTypeId :=
  requests_declareType rfl fun _ =>
    .declare (fun _ => make_untyped rfl rfl) (fun _ _ => .u32) rfl rfl

theorem requests_floatTypeId : Requests m .f32 floatTypeId :=
  requests_declareType rfl fun _ =>
    .declare (fun _ => make_untyped rfl rfl) (fun _ _ => .f32) rfl rfl

theorem settles_intern (constant : Constant) :
    Settles m [] keys known (intern constant) fun id s => s.pool.get id = .ok constant.canonical := by
  refine .of_same fun s id t _ ran => ?_
  have same : s.SameDeclarations t := Respects.intern.run s id t ran
  cases ran
  exact ⟨same, Pool.get_insert ..⟩

theorem interned_numeral {count : Word} (start : Interned m s)
    (stored : s.pool.get constant = .ok (.scalar (.u32 count))) (held : (constant, id) ∈ s.constants.entries) :
    Numeral count id s := by
  cases start.constants _ held with
  | scalar found typed declared =>
    cases stored.symm.trans found
    exact ⟨_, typed, declared⟩
  | null found whole =>
    cases stored.symm.trans found
    cases whole
  | composite found _ _ counted =>
    cases stored.symm.trans found
    cases counted

theorem settles_wordConstantId (count : Word) :
    Settles m [] (fun key => ReflTransGen m.Component key .u32) (fun _ => True) (wordConstantId count)
      fun id => Numeral count id := by
  refine Settles.after (settles_intern _) (fun _ within => within) fun constant => ?_
  refine Settles.finish (settles_remember_constant ?_) fun id s start held member =>
    interned_numeral start held.2 member
  refine Settles.after requests_wordTypeId (fun _ within => within) fun ty => settles_fresh fun id => ?_
  refine (settles_declare (fun _ => make_typed rfl rfl) rfl fun s start held => ?_).bind fun _ => ?_
  · exact fun ref member => mem_singleton.mp member ▸ start.declared held.2
  · exact .pure fun s held => ⟨⟨_, held.1.declarations, rfl⟩,
      .scalar held.2.1.2 held.2.2 held.1.declarations, .inl held.1.unshared⟩

theorem settles_format (use : ImageUse) :
    Settles m [] keys (fun _ => True) use.format fun format _ => use.formatWord = .ok format := by
  cases use with
  | storage format =>
    refine Settles.check fun word found => ?_
    dsimp only
    split
    · exact Settles.quiet fun _ => .pure fun _ _ => found
    · exact .pure fun _ _ => found
  | sampled | multisampled | attachment => exact .pure fun _ _ => rfl

theorem fills_declareImage [∀ opened, Lasting opened known] {key sampled : Ty} {use : ImageUse} {dim : TextureDim}
    {part : Word} (used : key.image? = some (use, dim, sampled)) (plain : m.layout id key = [])
    (typed : ∀ s, known s → HasType sampled part s) : Fills m key id known (declareImage use dim part id) := by
  refine Settles.check fun dimWord shaped => ?_
  extract_lets declaring
  have declared (u : Unit) : Fills m key id known (declaring u) := by
    refine Settles.after_pending (settles_format use) (fun _ within => within) fun format => ?_
    refine Fills.declare (fun _ => make_untyped rfl rfl) (fun s held => ?_) rfl plain
    exact .image used (typed s held.1) shaped held.2
  split
  · exact Settles.quiet declared
  · exact declared ()

theorem hasType_normal (ty : Ty) : HasType ty.normal = HasType ty := by
  funext id s
  rw [HasType, HasType, Ty.normal_normal]

/-- The step adds only decorations of the id, `extra` among them. -/
def Annotates {α : Type} (id : Word) (extra : List Instruction) (step : Lower α) : Prop :=
  ∀ s a t, step.run s = .ok (a, t) → Alike id extra s t

namespace Annotates

variable {α β : Type} {extra : List Instruction} {step : Lower α} {op : Opcode} {operands : List Operand}
  {inst : Instruction}

theorem of_same [same : Respects SameDeclarations step] : Annotates id [] step :=
  fun s a t ran => .of_same (same.run s a t ran)

theorem bind {next : α → Lower β} {more : List Instruction} (first : Annotates id extra step)
    (second : ∀ a, Annotates id more (next a)) : Annotates id (extra ++ more) (step >>= next) := by
  intro s b u ran
  obtain ⟨a, t, ran, rest⟩ := run_bind_eq_ok.mp ran
  exact (first s a t ran).trans (second a t b u rest)

theorem add (made : ∀ other, make op operands = .ok other → other = inst)
    (elsewhere : ∀ other, other ≠ id → inst.laysOut other = false) :
    Annotates id ([inst].filter (laysOut id)) (add .annotations op operands) := by
  intro s u t ran
  obtain ⟨other, instruction, rfl⟩ := add_run ran
  rw [made other instruction]
  exact
    { next := le_rfl
      pool := .refl _
      types := rfl
      constants := rfl
      nulls := rfl
      declarations := rfl
      meanings := rfl
      named := fun named => named
      ordered := fun ordered => ordered
      marks := by simp only [marks, Assembly.append, Array.toList_push, filter_append]
      others := fun other different => by simp [marks, Assembly.append, elsewhere other different] }

theorem fail (fault : Fault) : Annotates id extra (Lower.fail fault : Lower α) := by
  intro s a t ran
  cases ran

/-- A decoration that says where the parts of a type are. -/
theorem mark (made : ∀ other, make op operands = .ok other → other = inst)
    (here : inst.laysOut id = true) (elsewhere : ∀ other, other ≠ id → inst.laysOut other = false) :
    Annotates id [inst] (Lower.add .annotations op operands) := by
  simpa [here] using add made elsewhere

/-- A decoration that says something else. -/
theorem plain (made : ∀ other, make op operands = .ok other → other = inst)
    (plain : ∀ other, inst.laysOut other = false) : Annotates id [] (Lower.add .annotations op operands) := by
  have added : Annotates id _ _ := add made fun other _ => plain other
  simpa [plain id] using added

theorem settles (annotates : Annotates id extra step) (declared before : List Instruction) :
    Settles m [id] keys (fun s => s.declarations id = declared ∧ s.marks id = before ∧ s.Reserved id) step
      fun _ s => s.declarations id = declared ∧ s.marks id = before ++ extra ∧ s.Reserved id := by
  intro s a t start ⟨held, marked, reserved⟩ ran
  have alike := annotates s a t ran
  have leads : Leads [id] keys s t := alike.leads start
  refine ⟨alike.interned start reserved.1 reserved.2, leads, ?_, ?_, lasting_reserved.keep leads reserved⟩
  · rw [alike.declarations, held]
  · rw [alike.marks, marked]

end Annotates

theorem annotates_arrayStride (id stride : Word) :
    Annotates id [⟨.decorate, none, none, [.id id, .literal Decoration.arrayStride, .literal stride]⟩]
      (decorate id [Decoration.arrayStride, stride]) :=
  .mark (fun _ => make_plain rfl rfl) (by simp [laysOut])
    fun other different => by simp [laysOut, different.symm]

theorem annotates_decorateMember (id : Word) (index : Nat) (member : Member) :
    Annotates id [memberOffset id (member, index)] (decorateMember id index member) := by
  have colMajor (position : Word) : Annotates id []
      (add .annotations .memberDecorate [.id id, .literal position, .literal Decoration.colMajor]) :=
    .plain (fun _ => make_plain rfl rfl) fun _ => Bool.and_false _
  have matrixStride (position stride : Word) : Annotates id [] (add .annotations .memberDecorate
      [.id id, .literal position, .literal Decoration.matrixStride, .literal stride]) :=
    .plain (fun _ => make_plain rfl rfl) fun _ => Bool.and_false _
  unfold decorateMember
  extract_lets position decorateWith naming
  have named (u : Unit) : Annotates id [] (naming u) := by
    dsimp only [naming]
    split
    · exact .of_same
    · exact .of_same
  have offset : Annotates id [memberOffset id (member, index)]
      (decorateWith [Decoration.offset, member.offset]) := by
    refine .mark (fun _ => make_plain rfl rfl) ?_ fun other different => ?_
    · change (decide (id = id) && true) = true
      simp
    · change (decide (id = other) && true) = false
      simp [different.symm]
  refine offset.bind fun _ => ?_
  split
  · split
    · exact .fail _
    · exact (colMajor position).bind fun _ => (matrixStride position _).bind named
  · exact named ()

/-- The declaration of a type that is laid out before and after it. -/
theorem fills_laidOut [stays : ∀ opened, Lasting opened known] {op : Opcode} {operands : List Operand}
    {inst : Instruction} {extra : List Instruction} {last : Lower Unit}
    (made : ∀ other, make op operands = .ok other → other = inst)
    (describes : ∀ s, known s → Describes m s id key inst) (target : inst.target? = some id)
    (annotates : Annotates id extra last) (laidOut : before ++ extra = m.layout id key) :
    Settles m [id] keys (fun s => s.Pending id before ∧ known s) (declare op operands >>= fun _ => last)
      fun _ => Filled m key id := by
  refine (settles_declare made target fun s start held => (describes s held).refers start).bind fun _ => ?_
  refine ((annotates.settles [inst] before).frame known).mono (fun s held => ?_) fun _ s held => ?_
  · exact ⟨⟨held.1.declarations, held.1.marks, held.1.reserved⟩, held.2⟩
  · exact ⟨⟨inst, held.1.1, describes s held.2⟩, held.1.2.1.trans laidOut⟩

/-- The types of the members of a struct are asked for, and each member is laid out. -/
theorem settles_members {typeId : Ty → Lower Word} (types : ∀ ty, Requests m ty.normal (typeId ty))
    (members : List (Member × Nat)) (among : ∀ member ∈ members, m.Component member.1.ty.normal key)
    (before : List Instruction) :
    Settles m [id] (fun part => TransGen m.Component part key) (Pending id before)
      (members.mapM fun (member, index) => do
        let memberType ← typeId member.ty
        decorateMember id index member
        return memberType)
      fun parts s => s.Pending id (before ++ members.map (memberOffset id)) ∧
        Forall₂ (fun member part => HasType member.1.ty part s) members parts := by
  induction members generalizing before with
  | nil =>
    rw [mapM_nil]
    exact .pure fun s pending => ⟨by simpa using pending, .nil⟩
  | cons member rest ih =>
    rw [mapM_cons]
    refine (?_ : Settles m [id] _ (Pending id before) _ fun part s =>
      s.Pending id (before ++ [memberOffset id member]) ∧ HasType member.1.ty part s).bind fun part => ?_
    · refine Settles.after (types member.1.ty) (fun _ within => .tail' within (among member mem_cons_self))
        fun part => ?_
      have decorated : Settles m [id] (fun part => TransGen m.Component part key) _ _ _ :=
        ((annotates_decorateMember id member.2 member.1).settles [] before).frame (HasType member.1.ty part)
      refine (decorated.mono (fun s ⟨pending, typed⟩ => ?_) fun _ s held => held).bind fun _ => ?_
      · exact .pure fun s held => ⟨⟨held.1.2.2, held.1.1, held.1.2.1⟩, held.2⟩
      · exact ⟨⟨pending.declarations, pending.marks, pending.reserved⟩, typed⟩
    · have later := ih (fun other held => among other (mem_cons_of_mem _ held))
        (before ++ [memberOffset id member])
      refine (later.frame (HasType member.1.ty part)).bind fun parts => .pure fun s ⟨⟨pending, typed⟩, here⟩ => ?_
      exact ⟨by simpa using pending, .cons here typed⟩

theorem fills_declareStruct {typeId : Ty → Lower Word} (types : ∀ ty, Requests m ty.normal (typeId ty))
    (struct : StructId) (id : Word) :
    Fills m (.struct struct) id (fun _ => True) (declareStruct m typeId struct id) := by
  refine Settles.check fun definition defined => ?_
  have among (member : Member × Nat) (held : member ∈ definition.members.zipIdx) :
      m.Component member.1.ty.normal (.struct struct) := by
    refine ⟨member.1.ty, ?_, rfl⟩
    simp only [components, defined]
    exact mem_map_of_mem (fst_mem_of_mem_zipIdx held)
  refine ((settles_members types definition.members.zipIdx among []).mono (fun _ held => held.1)
    fun _ _ held => held).bind fun parts => ?_
  have block : Annotates id [] (decorate id [Decoration.block]) :=
    .plain (fun _ => make_plain rfl rfl) fun _ => Bool.and_false _
  have made (inst : Instruction) (made : make .typeStruct (.id id :: parts.map .id) = .ok inst) :
      inst = ⟨.typeStruct, none, some id, parts.map .id⟩ := by
    rw [Instruction.make_untyped rfl rfl made]
    exact congrArg _ (Instruction.classify_ids parts)
  have laidOut : ([] ++ definition.members.zipIdx.map (memberOffset id)) ++ [] =
      m.layout id (.struct struct) := by
    simp only [layout, defined, nil_append, append_nil]
  refine fills_laidOut made (fun s typed => .struct defined ?_) rfl ?_ laidOut
  · have related : Forall₂ (fun member part => HasType member.ty part s)
        (definition.members.zipIdx.map Prod.fst) parts := forall₂_map_left_iff.mpr typed
    rwa [zipIdx_map_fst] at related
  · extract_lets naming
    have named (u : Unit) : Annotates id [] (naming u) := by
      dsimp only [naming]
      split <;> exact .of_same
    split
    · exact block.bind named
    · exact named ()

theorem requests_typeIdWith {structType : StructId → Lower Word}
    (structs : ∀ struct, Requests m (.struct struct) (structType struct)) (ty : Ty) :
    Requests m ty.normal (typeIdWith structType ty) := by
  have made {op : Opcode} {inst : Instruction} {id : Word} {rest : List Operand} :=
    @make_untyped op inst id rest
  induction ty with
  | void => exact requests_declareType rfl fun _ => .declare (fun _ => made rfl rfl) (fun _ _ => .void) rfl rfl
  | bool => exact requests_declareType rfl fun _ => .declare (fun _ => made rfl rfl) (fun _ _ => .bool) rfl rfl
  | i32 => exact requests_declareType rfl fun _ => .declare (fun _ => made rfl rfl) (fun _ _ => .i32) rfl rfl
  | u32 => exact requests_wordTypeId
  | f32 => exact requests_floatTypeId
  | f16 =>
    refine requests_declareType rfl fun _ => Settles.quiet fun _ => Settles.quiet fun _ => Settles.quiet fun _ => ?_
    exact Fills.declare (fun _ => made rfl rfl) (fun _ _ => .f16) rfl rfl
  | vector elem width ih =>
    refine requests_declareType rfl fun _ => .after ⟨elem, mem_singleton_self _, rfl⟩ ih fun part => ?_
    exact .declare (fun _ => made rfl rfl) (fun _ held => .vector held.2) rfl rfl
  | matrix elem columns rows ih =>
    have column : Requests m (.vector elem rows) (declareType (.vector elem rows) fun id => do
        let elemId ← typeIdWith structType elem
        declare .typeVector [.id id, .id elemId, .literal rows]) := by
      refine requests_declareType rfl fun _ => .after ⟨elem, mem_singleton_self _, rfl⟩ ih fun part => ?_
      exact .declare (fun _ => made rfl rfl) (fun _ held => .vector held.2) rfl rfl
    refine requests_declareType rfl fun _ =>
      .after ⟨.vector elem rows, mem_singleton_self _, rfl⟩ column fun part => ?_
    exact .declare (fun _ => made rfl rfl) (fun _ held => .matrix held.2) rfl rfl
  | array elem count stride ih =>
    have strided (id : Word) := annotates_arrayStride id stride
    cases count with
    | constant count =>
      refine requests_declareType (Ty.normal_normal _) fun id =>
        .after ⟨elem.normal, mem_cons_self, Ty.normal_normal _⟩ ih fun part => ?_
      refine .after ⟨.u32, mem_cons_of_mem _ (mem_singleton_self _), rfl⟩ (settles_wordConstantId count)
        fun length => fills_laidOut (fun _ => made rfl rfl) (fun s held => ?_) rfl (strided id) rfl
      exact .array (hasType_normal elem ▸ held.1.2) held.2
    | runtime =>
      refine requests_declareType (Ty.normal_normal _) fun id =>
        .after ⟨elem.normal, mem_singleton_self _, Ty.normal_normal _⟩ ih fun part => ?_
      refine fills_laidOut (fun _ => made rfl rfl) (fun s held => ?_) rfl (strided id) rfl
      exact .runtimeArray (hasType_normal elem ▸ held.2)
  | atomic inner ih => exact ih
  | pointer space store access ih =>
    refine requests_declareType (Ty.normal_normal _) fun _ =>
      .after ⟨store.normal, mem_singleton_self _, Ty.normal_normal _⟩ ih fun part => ?_
    refine Settles.check fun storage stored => Fills.declare (fun _ => made rfl rfl) (fun s held => ?_) rfl rfl
    exact .pointer (hasType_normal store ▸ held.2) stored
  | struct struct => exact structs struct
  | sampler kind =>
    exact requests_declareType rfl fun _ => .declare (fun _ => made rfl rfl) (fun _ _ => .sampler) rfl rfl
  | sampledTexture dim sampled ih | multisampledTexture dim sampled ih | inputAttachment sampled ih
  | storageTexture dim format access sampled ih =>
    refine requests_declareType rfl fun _ => .after ⟨sampled, mem_singleton_self _, rfl⟩ ih fun part => ?_
    exact fills_declareImage rfl rfl fun _ held => held.2
  | depthTexture dim | depthMultisampledTexture dim =>
    refine requests_declareType rfl fun _ =>
      .after ⟨.f32, mem_singleton_self _, rfl⟩ requests_floatTypeId fun part => ?_
    exact fills_declareImage rfl rfl fun _ held => held.2
  | sampledImage image ih =>
    refine requests_declareType (Ty.normal_normal _) fun _ =>
      .after ⟨image.normal, mem_singleton_self _, Ty.normal_normal _⟩ ih fun part => ?_
    exact .declare (fun _ => made rfl rfl) (fun _ held => .sampledImage (hasType_normal image ▸ held.2)) rfl rfl

theorem requests_structTypeWithin (depth : Nat) (struct : StructId) :
    Requests m (.struct struct) (structTypeWithin m depth struct) := by
  induction depth generalizing struct with
  | zero => exact .fail _
  | succ depth ih =>
    exact requests_declareType rfl fun id => fills_declareStruct (requests_typeIdWith ih) struct id

theorem requests_typeId (m : Module) (ty : Ty) : Requests m ty.normal (typeId m ty) :=
  requests_typeIdWith (requests_structTypeWithin _) ty

end Shader.Lower
