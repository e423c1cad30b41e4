import Shader.Proofs.Lowering.TypeTable

/-!
The tables of constants, and what all tables are after a lowering.

A constant gets its id and then its elements get theirs, before it is declared. A composite of zeros has no
declaration of its own: it stands for the null value of its type. Nothing else that a lowering does touches what the
tables hold.
-/
namespace Shader

open List

variable {α : Type} {constant : ConstId} {known : LowerState → Prop} {options : Options}
variable {ε : Type} {test : α → Except ε Bool} {list : List α}

theorem allM_eq_ok_true (all : list.allM test = .ok true) : ∀ a ∈ list, test a = .ok true := by
  induction list with
  | nil => exact fun _ member => by cases member
  | cons a rest ih =>
    rw [allM_cons] at all
    obtain ⟨holds, tested, others⟩ := bind_eq_ok.mp all
    cases holds with
    | false => cases others
    | true => exact forall_mem_cons.mpr ⟨tested, ih others⟩

theorem Pool.zero_of_allZeroWithin {pool : Pool} (depth : Nat) {id : ConstId}
    (zero : pool.allZeroWithin depth id = .ok true) : pool.Zero id := by
  induction depth generalizing id with
  | zero => cases zero
  | succ depth ih =>
    obtain ⟨stored, found, rest⟩ := bind_eq_ok.mp zero
    cases stored with
    | scalar value => exact .scalar found (Except.ok.inj rest)
    | composite ty elements => exact .composite found fun element member => ih (allM_eq_ok_true rest element member)
    | splat ty element count => exact .splat found (ih rest)

theorem allM_eq_ok_false (some : list.allM test = .ok false) : ∃ a ∈ list, test a = .ok false := by
  induction list with
  | nil => cases some
  | cons a rest ih =>
    rw [allM_cons] at some
    obtain ⟨holds, tested, others⟩ := bind_eq_ok.mp some
    cases holds with
    | false => exact ⟨a, mem_cons_self, tested⟩
    | true =>
      obtain ⟨other, member, failed⟩ := ih others
      exact ⟨other, mem_cons_of_mem _ member, failed⟩

theorem Pool.nonzero_of_allZeroWithin {pool : Pool} (depth : Nat) {id : ConstId}
    (nonzero : pool.allZeroWithin depth id = .ok false) : pool.Nonzero id := by
  induction depth generalizing id with
  | zero => cases nonzero
  | succ depth ih =>
    obtain ⟨stored, found, rest⟩ := bind_eq_ok.mp nonzero
    cases stored with
    | scalar value => exact .scalar found (Except.ok.inj rest)
    | composite ty elements =>
      obtain ⟨element, member, failed⟩ := allM_eq_ok_false rest
      exact .composite found member (ih failed)
    | splat ty element count => exact .splat found (ih rest)

theorem Scalar.normal_ty (value : Scalar) : value.ty.normal = value.ty := by
  cases value <;> rfl

namespace Lower

open Binary LowerState Relation

variable {m : Module} {opened : List Word} {keys : Ty → Prop} {known : LowerState → Prop} {id : Word}
variable {fact : α → LowerState → Prop} {ty : Ty} {β : Type} {read : Pool → Except Fault α}
  {later : β → LowerState → Prop} {typeWord : Word} {elementId : ConstId → Lower Word} {step : Lower α}

instance [each : ∀ a, Lasting opened (fact a)] : Lasting opened fun s => ∃ a, fact a s :=
  ⟨fun leads ⟨a, held⟩ => ⟨a, (each a).keep leads held⟩⟩

instance {α : Sort*} {fact : α → LowerState → Prop} [each : ∀ a, Lasting opened (fact a)] :
    Lasting opened fun s => ∀ a, fact a s :=
  ⟨fun leads held a => (each a).keep leads (held a)⟩

instance : Lasting opened fun s => s.pool.typeOf constant = .ok ty :=
  ⟨fun leads held => leads.pool.typeOf held⟩

instance : Lasting opened fun s => s.pool.Zero constant :=
  ⟨fun leads held => held.keep leads.pool⟩

instance : Lasting opened fun s => s.pool.Nonzero constant :=
  ⟨fun leads held => held.keep leads.pool⟩

instance {element : ConstId} {index : Nat} :
    Lasting opened fun s => s.pool.element constant index = .ok element :=
  ⟨fun leads held => Pool.element_keep leads.pool held⟩

/-- What is read from the pool. -/
theorem Settles.ask {next : α → Lower β}
    (second : ∀ a, Settles m opened keys (fun s => known s ∧ read s.pool = .ok a) (next a) later) :
    Settles m opened keys known (askPool read >>= next) later := by
  intro s b t start held ran
  obtain ⟨a, middle, asked, rest⟩ := run_bind_eq_ok.mp ran
  obtain ⟨outcome, rfl⟩ := askPool_run asked
  exact second a middle b t start ⟨held, outcome⟩ rest

/-- As `ask`, where what is known of an open id is kept apart. -/
theorem Settles.ask_pending {next : α → Lower β} {before : List Instruction}
    (second : ∀ a, Settles m opened keys (fun s => s.Pending id before ∧ known s ∧ read s.pool = .ok a) (next a)
      later) : Settles m opened keys (fun s => s.Pending id before ∧ known s) (askPool read >>= next) later :=
  ask fun a => (second a).mono (fun _ held => ⟨held.1.1, held.1.2, held.2⟩) fun _ _ held => held

theorem settles_remember_null {make : Lower Word}
    (made : Settles m [] keys known make fun id s => NullAt s ty id ∧ ty.pointee? = none) :
    Settles m [] keys known (remember .nulls ty make) fun id s => (ty, id) ∈ s.nulls.entries := by
  refine settles_remember (fun _ _ member => member) (fun s id start held => ?_) made
  have leads : Leads [] keys s { s with nulls := s.nulls.insert ty id } :=
    leads_of_same_out start rfl rfl rfl (Subset.refl _) (subset_cons_self ..)
  refine ⟨⟨start.blank, start.closed, start.ordered, start.reads, fun entry member => ?_, fun entry member => ?_, ?_,
    fun first early second late same => ?_, start.keys, start.ids, start.named,
    forall_mem_cons.mpr ⟨held.2, start.bare⟩⟩, leads, mem_cons_self⟩
  · exact (start.types entry member).keep leads.toExtends rfl
  · exact (start.constants entry member).keep leads.toExtends
  · exact forall_mem_cons.mpr ⟨held.1.keep leads.toExtends,
      fun entry member => (start.nulls entry member).keep leads.toExtends⟩
  · refine (start.apart first early second late same).imp_right fun shared => ?_
    obtain ⟨ty, null⟩ := shared
    exact ⟨ty, mem_cons_of_mem _ null⟩

theorem settles_nullId (ty : Ty) :
    Settles m [] (fun _ => True) (fun _ => True) (nullId m ty) fun id s => (ty.normal, id) ∈ s.nulls.entries := by
  refine settles_remember_null ?_
  dsimp only
  split
  · exact .fail_bind _
  · rename_i bare
    refine Settles.after (requests_typeId m _) (fun _ _ => trivial) fun typeWord => settles_fresh fun id => ?_
    refine (settles_declare (fun _ => Instruction.make_typed rfl rfl) rfl fun s start held => ?_).bind fun _ => ?_
    · exact fun ref member => mem_singleton.mp member ▸ start.declared held.2
    · refine .pure fun s held => ⟨⟨_, held.1.declarations, rfl⟩, ⟨typeWord, ?_, held.1.declarations⟩,
        by simpa using bare⟩
      exact ty.normal_normal ▸ held.2.2

/-- The undefined value of a type is nothing that others are made of. -/
theorem settles_undefId (ty : Ty) : Settles m [] (fun _ => True) (fun _ => True) (undefId m ty) fun _ _ => True := by
  refine settles_remember (fun _ _ _ => trivial) (fun s id start _ => ?_)
    (?_ : Settles m [] (fun _ => True) (fun _ => True) _ fun _ _ => True)
  · have alike : Alike id [] s { s with undefs := s.undefs.insert ty.normal id } :=
      { Alike.of_same (.refl s) with }
    exact ⟨alike.interned_nil start, alike.leads_nil start, trivial⟩
  · refine Settles.after (requests_typeId m _) (fun _ _ => trivial) fun typeWord => settles_fresh fun id => ?_
    refine (settles_declare (fun _ => Instruction.make_typed rfl rfl) rfl fun s start held => ?_).bind fun _ => ?_
    · exact fun ref member => mem_singleton.mp member ▸ start.declared held.2
    · exact .pure fun s held => ⟨⟨_, held.1.declarations, rfl⟩, trivial⟩

theorem settles_declareScalar [∀ opened, Lasting opened known] (value : Scalar)
    (typed : ∀ s, Interned m s → known s → s.declarations typeWord ≠ []) :
    Settles m [id] keys (fun s => s.Pending id [] ∧ known s) (declareScalar typeWord id value)
      fun _ s => Stated id (scalarDeclaration typeWord id value) [] s ∧ known s := by
  have refers (s : LowerState) (start : Interned m s) (held : known s) (ref : Word) (member : ref ∈ [typeWord]) :
      s.declarations ref ≠ [] := mem_singleton.mp member ▸ typed s start held
  rcases value with (_ | _) | value | value | bits | bits
  all_goals
    exact settles_declare (fun _ => Instruction.make_typed rfl rfl) rfl refers

/-- The elements of a constant, from a position on, have the ids that are found. -/
theorem settles_elementIds (constant : ConstId)
    (elements : ∀ element, Settles m [] (fun _ => True) (fun _ => True) (elementId element)
      fun id s => (element, id) ∈ s.constants.entries) (index : Nat) (found : List Word) (count : Nat) :
    Settles m [] (fun _ => True) (fun _ => True) (elementIds elementId constant index found count)
      fun ids s => ∃ elements new, ids = found.reverse ++ new ∧ elements.length = count ∧
        (∀ k (bound : k < elements.length), s.pool.element constant (index + k) = .ok elements[k]) ∧
        Forall₂ (fun element id => (element, id) ∈ s.constants.entries) elements new := by
  induction count generalizing index found with
  | zero => exact .pure fun s _ => ⟨[], [], by simp, rfl, by simp, .nil⟩
  | succ count ih =>
    refine Settles.ask fun element => Settles.after (elements element) (fun _ _ => trivial) fun id => ?_
    refine ((ih (index + 1) (id :: found)).frame _).mono (fun _ held => ⟨trivial, held⟩)
      fun ids s ⟨⟨elements, new, same, length, picked, held⟩, first⟩ => ?_
    refine ⟨element :: elements, id :: new, by simp [same], by simp [length], fun k bound => ?_, .cons first.2 held⟩
    cases k with
    | zero => exact first.1.2
    | succ k =>
      have later := picked k (by simpa using bound)
      rwa [Nat.add_assoc, Nat.add_comm 1 k] at later

theorem isScalar_of_componentCount {count : Nat} (counted : componentCount m constant ty = .ok count) :
    ty.isScalar = false := by
  cases ty <;> first | rfl | cases counted

theorem settles_declareConstant (constant : ConstId) (ty : Ty)
    (elements : ∀ element, Settles m [] (fun _ => True) (fun _ => True) (elementId element)
      fun id s => (element, id) ∈ s.constants.entries) :
    Settles m [] (fun _ => True)
      (fun s => s.pool.typeOf constant = .ok ty ∧ (ty.isScalar = false → s.pool.Nonzero constant))
      (declareConstant m elementId constant ty)
      fun id s => ConstantAt m s constant id ∧ ∀ entry ∈ s.constants.entries, entry.2 ≠ id := by
  refine Settles.after (requests_typeId m ty) (fun _ _ => trivial) fun typeWord => settles_fresh fun id => ?_
  refine Settles.ask_pending fun stored => ?_
  have ofType (s : LowerState) (typed : s.pool.typeOf constant = .ok ty)
      (found : s.pool.get constant = .ok stored) : stored.ty = ty := by
    obtain ⟨other, same, rfl⟩ := Pool.typeOf_eq_ok.mp typed
    cases found.symm.trans same
    rfl
  cases stored with
  | scalar value =>
    refine (settles_declareScalar value fun s start held => start.declared held.1.2).bind fun _ => ?_
    refine .pure fun s held => ?_
    obtain ⟨stated, ⟨⟨typed, -⟩, entered⟩, found⟩ := held
    refine ⟨⟨_, stated.declarations, ?_⟩, ?_, stated.unshared⟩
    · rcases value with (_ | _) | value | value | bits | bits <;> rfl
    · cases ofType s typed found
      exact .scalar found (Scalar.normal_ty value ▸ entered) stated.declarations
  | composite | splat =>
    refine Settles.check fun count counted => ?_
    refine Settles.after_pending (settles_elementIds constant elements 0 [] count) (fun _ _ => trivial) fun ids => ?_
    have made (inst : Instruction)
        (made : Instruction.make .constantComposite (.id typeWord :: .id id :: ids.map .id) = .ok inst) :
        inst = ⟨.constantComposite, some typeWord, some id, ids.map .id⟩ := by
      rw [Instruction.make_typed rfl rfl made]
      exact congrArg _ (Instruction.classify_ids ids)
    refine (settles_declare made rfl fun s start held ref member => ?_).bind fun _ => ?_
    · obtain ⟨⟨⟨-, entered⟩, -⟩, elements, new, same, -, -, named⟩ := held
      rw [reverse_nil, nil_append] at same
      subst same
      rcases mem_cons.mp member with rfl | among
      · exact start.declared entered
      · have among : ref ∈ ids := by simpa [filterMap_map, Function.comp_def, Operand.reference?] using among
        obtain ⟨element, -, held⟩ := forall₂_mem_right named among
        exact Interned.declared_constant start held
    · refine .pure fun s held => ?_
      obtain ⟨stated, ⟨⟨⟨typed, nonzero⟩, entered⟩, found⟩, elements, new, same, length, picked, named⟩ := held
      refine ⟨⟨_, stated.declarations, rfl⟩, ?_, stated.unshared⟩
      have mixed := nonzero (isScalar_of_componentCount counted)
      cases ofType s typed found
      rw [reverse_nil, nil_append] at same
      subst same length
      exact .composite found mixed entered counted (fun k bound => by simpa using picked k bound) named
        stated.declarations

theorem settles_constantIdWithin (depth : Nat) (constant : ConstId) :
    Settles m [] (fun _ => True) (fun _ => True) (constantIdWithin m depth constant)
      fun id s => (constant, id) ∈ s.constants.entries := by
  induction depth generalizing constant with
  | zero => exact .fail _
  | succ depth ih =>
    refine settles_remember_constant (Settles.ask fun ty => ?_)
    have own := settles_declareConstant constant ty ih
    dsimp only
    split
    · rename_i scalar
      refine own.mono (fun _ held => ⟨held.2, fun whole => ?_⟩) fun _ _ held => ⟨held.1, .inl held.2⟩
      rw [scalar] at whole
      cases whole
    · rename_i whole
      refine Settles.ask fun isNull => ?_
      cases isNull with
      | false =>
        exact own.mono (fun _ held => ⟨held.1.2, fun _ => Pool.nonzero_of_allZeroWithin _ held.2⟩)
          fun _ _ held => ⟨held.1, .inl held.2⟩
      | true =>
        refine (((settles_nullId ty).frame fun s => s.pool.typeOf constant = .ok ty ∧ s.pool.Zero constant).mono
          (fun s held => ⟨trivial, held.1.2, ?_⟩) fun id s ⟨null, typed, zero⟩ => ?_)
        · exact Pool.zero_of_allZeroWithin _ held.2
        · obtain ⟨stored, found, rfl⟩ := Pool.typeOf_eq_ok.mp typed
          exact ⟨.null found (by simpa using whole) zero null, .inr ⟨_, null⟩⟩

theorem settles_constantId (constant : ConstId) : Settles m [] (fun _ => True) (fun _ => True) (constantId m constant)
      fun id s => (constant, id) ∈ s.constants.entries :=
  Settles.quiet fun s => settles_constantIdWithin (s.pool.size + 1) constant

/-- The tables stay as they have to be, and what they hold stays. -/
def KeepsInterned (m : Module) (s t : LowerState) : Prop :=
  Interned m s → Interned m t ∧ Leads [] (fun _ => True) s t

theorem respects_of_settles {α : Type} {step : Lower α} {gives : α → LowerState → Prop}
    (settles : Settles m [] keys (fun _ => True) step gives) : Respects (KeepsInterned m) step := by
  refine ⟨fun s a t ran start => ?_⟩
  obtain ⟨finish, leads, -⟩ := settles s a t start trivial ran
  exact ⟨finish, leads.mono (Subset.refl _) fun _ _ => trivial⟩

theorem keepsInterned_of_alike {s t : LowerState} (alike : Alike 0 [] s t) : KeepsInterned m s t :=
  fun start => ⟨alike.interned_nil start, alike.leads_nil start⟩

instance steady_keepsInterned : Steady m (KeepsInterned m) where
  trans first second start := by
    obtain ⟨between, early⟩ := first start
    obtain ⟨finish, late⟩ := second between
    exact ⟨finish, early.trans late⟩
  same same := keepsInterned_of_alike (.of_same same)
  wordConstantId word := respects_of_settles (settles_wordConstantId word)
  typeId ty := respects_of_settles (requests_typeId m ty)
  nullId ty := respects_of_settles (settles_nullId ty)
  undefId ty := respects_of_settles (settles_undefId ty)
  constantId constant := respects_of_settles (settles_constantId constant)

instance : Decorating (KeepsInterned m) where
  trans := steady_keepsInterned.trans
  same := steady_keepsInterned.same
  decorate id kind rest other := by
    have plain : Annotates 0 [] (decorate id (kind :: rest)) := by
      refine .plain (fun _ => Instruction.make_plain rfl rfl) fun target => ?_
      change (decide (id = target) && decide (kind = Decoration.arrayStride)) = false
      simp [other]
    exact ⟨fun s a t ran => keepsInterned_of_alike (plain s a t ran)⟩

instance : Announcing (KeepsInterned m) where
  trans := steady_keepsInterned.trans
  same := steady_keepsInterned.same
  entryPoint operands := by
    refine ⟨fun s u t ran => keepsInterned_of_alike ?_⟩
    obtain ⟨inst, -, rfl⟩ := add_run ran
    exact { Alike.of_same (.refl s) with }

theorem settles_of_respects (kept : Respects (KeepsInterned m) step) :
    Settles m [] (fun _ => True) known step fun _ _ => True := by
  intro s a t start _ ran
  obtain ⟨finish, leads⟩ := kept.run s a t ran start
  exact ⟨finish, leads, trivial⟩

/-- A step that keeps the tables may come before any other. -/
theorem Settles.next {next : α → Lower β} [Lasting [] known] [kept : Respects (KeepsInterned m) step]
    (second : ∀ a, Settles m [] (fun _ => True) known (next a) later) :
    Settles m [] (fun _ => True) known (step >>= next) later :=
  (settles_of_respects kept).after (fun _ _ => trivial) fun a =>
    (second a).mono (fun _ held => held.1) fun _ _ held => held

section
variable {known : LowerState → Prop}

/-- The declaration of a variable, or of a function type. No other declaration refers to it. -/
theorem settles_declare_apart {op : Opcode} {operands : List Operand} (apart : op = .variableDecl ∨ op = .typeFunction)
    (refers : ∀ inst, Instruction.make op operands = .ok inst → inst.result ≠ none ∧
      ∀ s, Interned m s → known s → ∀ ref ∈ inst.references, s.declarations ref ≠ []) :
    Settles m [] (fun _ => True) known (declare op operands) fun _ _ => True := by
  intro s u t start held ran
  obtain ⟨inst, made, rfl⟩ := add_run ran
  obtain ⟨named, declared⟩ := refers inst made
  have none : inst.target? = none := by
    rw [Instruction.target?, Instruction.op_of_make made, if_pos apart]
  have alike : Alike 0 [] s { s with out := s.out.append .globals inst } := by
    refine ⟨le_rfl, .refl _, rfl, rfl, rfl, ?_, ?_, fun start other member => ?_, fun ordered => ?_,
      (append_nil _).symm, fun _ _ => rfl⟩
    · funext id
      simp [declarations_push, none]
    · rw [meanings_push, readNext, none]
    · rcases mem_append.mp (Array.toList_push ▸ member : other ∈ s.out.globals.toList ++ [inst]) with early | late
      · exact start other early
      · exact mem_singleton.mp late ▸ named
    · exact inOrder_append ordered (declared s start held)
  exact ⟨alike.interned_nil start, alike.leads_nil start, trivial⟩

/-- A variable of the module is declared after its type and its initializer. -/
theorem settles_declareGlobal {word storage : Word} {initializer : Option Word}
    (refers : ∀ s, Interned m s → known s → ∀ ref ∈ typeWord :: initializer.toList, s.declarations ref ≠ []) :
    Settles m [] (fun _ => True) known (declareGlobal word typeWord storage initializer) fun _ _ => True := by
  refine settles_declare_apart (.inl rfl) fun inst made => ?_
  have shape : inst.result = some word ∧ inst.references = typeWord :: initializer.toList := by
    cases initializer <;> rw [Instruction.make_typed rfl rfl made] <;> exact ⟨rfl, rfl⟩
  exact ⟨by simp [shape.1], shape.2 ▸ refers⟩

theorem respects_declareVariable {id : InstId} {inst : Inst} (declaration : Variable) :
    Respects (KeepsInterned m) (declareVariable m options id inst declaration) := by
  refine .next fun word => .next fun result => .next fun found => ?_
  generalize found.ty = pointer
  cases pointer with
  | pointer space store access =>
    refine @respects_of_settles m (fun _ => True) _ _ (fun _ _ => True) (.ite (fun _ => .fail_bind _) fun known =>
      (requests_typeId m _).after (fun _ _ => trivial) fun typeWord => ?_)
    extract_lets last
    have naming : Respects (KeepsInterned m) (last ()) := by
      refine .next fun value => ?_
      split <;> infer_instance
    clear_value last
    have plain (storage : Word) {rest : Lower Unit} (kept : Respects (KeepsInterned m) rest) :
        Settles m [] (fun _ => True)
        (fun s => True ∧ ((Ty.pointer space store access).normal, typeWord) ∈ s.types.entries)
        (declareGlobal word typeWord storage none >>= fun _ => rest) fun _ _ => True := by
      refine (settles_declareGlobal fun s start held => ?_).bind fun _ => settles_of_respects kept
      simpa using start.declared held.2
    have initialized (storage value : Word) {fact : LowerState → Prop}
        (known : ∀ s, Interned m s → fact s → s.declarations value ≠ []) :
        Settles m [] (fun _ => True)
        (fun s => (True ∧ ((Ty.pointer space store access).normal, typeWord) ∈ s.types.entries) ∧ fact s)
        (declareGlobal word typeWord storage (some value) >>= last) fun _ _ => True := by
      refine (settles_declareGlobal fun s start held => ?_).bind fun _ => settles_of_respects naming
      simpa using ⟨start.declared held.1.2, known s start held.2⟩
    cases space with
    | functionLocal => exact settles_of_respects (.next fun _ => naming)
    | input | output =>
      refine .ite (fun _ => .next fun _ => ?_) fun _ => ?_
      all_goals exact .next fun storage => plain storage (.next fun _ => naming)
    | privateLocal =>
      cases declaration.initializer with
      | none =>
        refine (settles_nullId store).after (fun _ _ => trivial) fun value => initialized _ value fun s start held => ?_
        exact start.declared_null held
      | some source =>
        cases source with
        | constant constant =>
          refine (settles_constantId constant).after (fun _ _ => trivial) fun value =>
            initialized _ value fun s start held => ?_
          exact Interned.declared_constant start held
        | ssa | literal => exact .fail_bind _
    | pushConstant => exact plain _ naming
    | handle | storage | uniform => exact .next fun storage => plain storage (.next fun _ => naming)
    | workgroup =>
      refine .ite (fun _ => ?_) fun _ => plain _ naming
      · rw [map_eq_pure_bind, bind_assoc]
        refine (settles_nullId store).after (fun _ _ => trivial) fun value => initialized _ value fun s start held => ?_
        exact start.declared_null held
    | undefined => exact absurd rfl known
  | _ => exact Respects.fail

end

instance : HoldsOverVariables m options (KeepsInterned m) :=
  ⟨fun _ _ declaration => respects_declareVariable declaration⟩

/-- A function type is declared after the types it is made of. -/
theorem settles_signatureId {signature : Signature} [Lasting [] known]
    (refers : ∀ s, Interned m s → known s → ∀ ref ∈ signature.returnType :: signature.params, s.declarations ref ≠ []) :
    Settles m [] (fun _ => True) known (signatureId signature) fun _ _ => True := by
  refine @settles_remember m (fun _ => True) known _ _ .signatures signature _ (fun _ _ => True) _
    (fun _ _ _ => trivial)
    (fun s id start _ => ?_) (.next fun id => ?_)
  · have alike : Alike 0 [] s { s with signatures := s.signatures.insert signature id } :=
      { Alike.of_same (.refl s) with }
    exact ⟨alike.interned_nil start, alike.leads_nil start, trivial⟩
  · refine (settles_declare_apart (.inr rfl) fun inst made => ?_).bind fun _ => .pure fun _ _ => trivial
    have shape : inst = ⟨.typeFunction, none, some id, .id signature.returnType :: signature.params.map .id⟩ := by
      rw [Instruction.make_untyped rfl rfl made]
      exact congrArg (fun rest => Instruction.mk _ _ _ (_ :: rest)) (Instruction.classify_ids signature.params)
    have refersTo : inst.references = signature.returnType :: signature.params := by
      simp [shape, Instruction.references, Operand.reference?, Function.comp_def]
    exact ⟨by simp [shape], refersTo ▸ refers⟩

theorem settles_emitParameter (param : ValueId) : Settles m [] (fun _ => True) (fun _ => True) (emitParameter m param)
    fun declaration s => s.declarations declaration.2 ≠ [] := by
  refine .next fun id => .next fun value => (requests_typeId m _).after (fun _ _ => trivial) fun typeWord => ?_
  refine @Settles.finish _ _ _ _ _ _ (fun declaration s => ∃ ty, (ty, declaration.2) ∈ s.types.entries) _ _
    (.next fun declaration => ?_) fun _ _ start _ ⟨_, typed⟩ => start.declared typed
  split
  · exact .next fun _ => .pure fun s held => ⟨_, held.2⟩
  · exact .pure fun s held => ⟨_, held.2⟩

theorem settles_parameters (params : List ValueId) : Settles m [] (fun _ => True) (fun _ => True)
    (params.mapM (emitParameter m)) fun found s => ∀ declaration ∈ found, s.declarations declaration.2 ≠ [] := by
  induction params with
  | nil =>
    rw [mapM_nil]
    exact .pure fun _ _ _ member => absurd member not_mem_nil
  | cons param rest ih =>
    rw [mapM_cons]
    refine (settles_emitParameter param).after (fun _ _ => trivial) fun first =>
      ih.after (fun _ _ => trivial) fun found => ?_
    exact .pure fun s held => forall_mem_cons.mpr ⟨held.1.2, held.2⟩

instance {ref : FuncId} : Respects (KeepsInterned m) (emitFunction m options ref) := by
  have body (entry : BlockId) : Respects (KeepsInterned m) (emitBody m options entry) := has_emitBodyWithin
  have typed (function : Function) {rest : Word → List (Instruction × Word) → Word → Lower Unit}
      (kept : ∀ returnType params signature, Respects (KeepsInterned m) (rest returnType params signature)) :
      Respects (KeepsInterned m) (do
        let returnType ← typeId m function.returnType
        let params ← function.params.mapM (emitParameter m)
        let signature ← signatureId ⟨returnType, params.map Prod.snd⟩
        rest returnType params signature) := by
    refine @respects_of_settles m (fun _ => True) _ _ (fun _ _ => True)
      ((requests_typeId m _).after (fun _ _ => trivial) fun returnType => ?_)
    refine (settles_parameters _).after (fun _ _ => trivial) fun params => ?_
    refine (settles_signatureId fun s start held => ?_).bind fun signature => settles_of_respects (kept ..)
    refine forall_mem_cons.mpr ⟨start.declared held.1.2, fun ref member => ?_⟩
    obtain ⟨declaration, listed, rfl⟩ := mem_map.mp member
    exact held.2 declaration listed
  refine .next fun function => @Has.ite _ _ _ _ _ _ Respects.throw_bind (.next fun id => .next fun _ => ?_)
  extract_lets rest
  have lowered : Respects (KeepsInterned m) (rest ()) := typed function fun _ _ _ => inferInstance
  exact @Has.ite _ _ _ _ _ _ (.next fun _ => lowered) lowered

theorem prepared_interned (m : Module) : Interned m (prepared m) := by
  refine ⟨fun _ _ => ⟨rfl, rfl⟩, ?_, inOrder_nil, ?_, ?_, ?_, ?_, ?_, ?_, ?_, ?_, ?_⟩
  all_goals simp [prepared, declarations, Named]

/-- What the tables are after a lowering. -/
theorem interned_of_run {state : LowerState} (ran : Ran m options state) :
    Interned m state ∧ Leads [] (fun _ => True) (prepared m) state :=
  have kept : Respects (KeepsInterned m) (emitParts m options) := inferInstance
  kept.run (prepared m) () state ran.parts (prepared_interned m)

end Lower
end Shader
