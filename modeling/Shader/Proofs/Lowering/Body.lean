import Shader.Proofs.Lowering.Constructs

/-!
The instructions of a block are lowered to the layout of the block, and every key that they define is
counted once.
-/
namespace Shader.Lower

open Binary Instruction List LowerState

variable {m : Module} {reached : InstId → Prop} {allowed : Key → Prop}
variable {id : InstId} {keys : Multiset Key} {depth : Nat} {block : BlockId}

theorem permits_of_mentions {inst : Inst} (permits : ∀ key, Mentions m id inst key → allowed key) :
    Permits allowed inst where
  operands _ member := permits _ (.operand member)
  results _ member := permits _ (.result member)
  callee _ _ kind := permits _ (.callee kind)

section
variable {id : InstId} {inst : Inst} {under : BlockId → Multiset Key → Prop}

/-- An instruction that owns no blocks defines its results only. -/
theorem InstKeys.plain (whole : inst.kind.isControl = false) (counted : InstKeys m under id inst keys) :
    keys = ↑(inst.results.map Key.value) := by
  obtain ⟨own, parts, found, each, rfl⟩ := counted
  obtain ⟨construct, held, rfl⟩ := ownKeys_eq_ok found
  unfold constructKeys at held
  cases kind : inst.kind <;> rw [kind] at whole held each <;> cases whole <;> cases held <;> cases each <;> simp

theorem results_of_terminator (shaped : inst.Shaped) (ends : inst.kind.isTerminator = true) : inst.results = [] := by
  unfold Inst.Shaped Kind.admits at shaped
  cases kind : inst.kind <;> rw [kind] at ends shaped <;> cases ends <;>
    exact eq_nil_of_length_eq_zero (of_decide_eq_true shaped)

theorem Performs.lays {L : Ledger} {e : Effect} {scopes : Scopes}
    {described : Scopes → BlockId → List Instruction → Prop} (performed : Performs allowed m inst L e)
    (isReached : reached id) (held : m.inst id = .ok inst) (open_ : inst.kind.isTerminator = false)
    (whole : inst.kind.isControl = false) :
    LaysInst m reached allowed under described scopes id inst 0 L e where
  functions := performed.functions
  passed entry member := by
    obtain ⟨named, source, found, resolved⟩ := performed.passed entry member
    exact ⟨id, inst, source, isReached, held, named, found, resolved⟩
  code := .plain open_ whole performed.ordinary performed.realised
  labels := .of_none fun only member isLabel => by
    have ordinary := performed.ordinary only member
    rw [isLabel] at ordinary
    cases ordinary
  accounts keys counted := counted.2.plain whole ▸ performed.accounts counted.1

theorem gathers_nameResults (fits : ∀ value ∈ inst.results, allowed (.value value)) :
    Gathers allowed (nameResults m inst) fun _ _ => True := by
  refine .forM inst.results fun result member => (Gathers.check _).bind fun name => ?_
  cases name with
  | none => exact .pure fun _ _ => trivial
  | some name =>
    refine (gathers_valueId m fun v same => ?_).bind fun id => ?_
    · cases same
      exact fits result member
    · exact (gathers_nameId id name).mono fun _ _ _ _ _ => trivial

variable {body : Scopes → BlockId → Lower Unit} {described : Ledger → Scopes → BlockId → List Instruction → Prop}

theorem ensures_kind (held : m.inst id = .ok inst) (isReached : reached id) (options : Options)
    (lowers : Lowers m reached allowed body described under inst.kind.children)
    (mentions : ∀ key, Mentions m id inst key → allowed key) (scopes : Scopes) :
    Ensures (emitKind m options body scopes id inst) fun _ L =>
      LaysInst m reached allowed under (described L) scopes id inst 0 L := by
  have permits := permits_of_mentions mentions
  have performing : ∀ {step : Lower Unit} {kind : Kind}, inst.kind = kind → kind.isTerminator = false →
      kind.isControl = false → (Ensures step fun _ => Performs allowed m inst) →
      Ensures step fun _ L => LaysInst m reached allowed under (described L) scopes id inst 0 L := by
    rintro step kind rfl open_ whole performed
    exact performed.mono fun _ L e performs => performs.lays isReached held open_ whole
  have ending : ∀ {kind : Kind}, inst.kind = kind → kind.isTerminator = true → kind.isControl = false →
      Ensures (emitTerminator m scopes id kind) fun _ L =>
        LaysInst m reached allowed under (described L) scopes id inst 0 L := by
    rintro kind rfl ends whole
    refine (ensures_terminator scopes id inst.kind permits.operands ?_).mono fun _ L e laid => laid.mono ?_ ?_
    · exact fun target args construct l kind found loop => mentions _ (.continuing kind found loop)
    · rintro keys ⟨shaped, counted⟩
      rw [counted.plain whole, results_of_terminator shaped ends]
      rfl
    · rintro _ ⟨x, holds, rfl⟩
      exact .terminator ends holds
  unfold emitKind
  cases kind : inst.kind with
  | access object indices => exact performing kind rfl rfl (performs_access permits kind)
  | binary op lhs rhs => exact performing kind rfl rfl (performs_binary permits kind)
  | unary op value => exact performing kind rfl rfl (performs_unary permits kind)
  | bitcast value => exact performing kind rfl rfl (performs_bitcast permits kind)
  | convert value => exact performing kind rfl rfl (performs_convert permits kind)
  | construct args => exact performing kind rfl rfl (performs_construct permits kind)
  | swizzle object indices => exact performing kind rfl rfl (performs_swizzle permits kind)
  | load source => exact performing kind rfl rfl (performs_load permits kind)
  | store target value => exact performing kind rfl rfl (performs_store permits kind)
  | loadElement source index => exact performing kind rfl rfl (performs_loadElement permits kind)
  | storeElement target index value => exact performing kind rfl rfl (performs_storeElement permits kind)
  | var declaration => exact performing kind rfl rfl (performs_variable permits options id kind)
  | bind value =>
    refine performing kind rfl rfl ((performs_passThrough permits ?_ (one_of_shaped kind fun _ => rfl)).mono ?_)
    · simp [kind, Kind.operands]
    · exact fun _ L e performs => performs (by simp [recipe, kind])
  | builtin fn args => exact performing kind rfl rfl (performs_builtin permits kind)
  | targetCall fn args => exact performing kind rfl rfl (performs_targetCall permits kind)
  | call target args => exact performing kind rfl rfl (performs_call permits kind)
  | conditional c => exact ensures_conditional kind lowers mentions scopes
  | loop l => exact ensures_loop kind lowers mentions scopes
  | switch s => exact ensures_switch kind lowers mentions scopes
  | _ => exact ending kind rfl rfl

theorem ensures_inst (held : m.inst id = .ok inst) (isReached : reached id) (options : Options)
    (lowers : Lowers m reached allowed body described under inst.kind.children)
    (mentions : ∀ key, Mentions m id inst key → allowed key) (scopes : Scopes) :
    Ensures (emitInst m options body scopes id) fun _ L =>
      LaysInst m reached allowed under (described L) scopes id inst 0 L := by
  unfold emitInst
  rw [check_ok_bind held]
  refine .followed (ensures_kind held isReached options lowers mentions scopes) ?_
  have named : Gathers allowed (nameResults m inst) fun _ _ => True :=
    gathers_nameResults fun _ member => mentions _ (.result member)
  cases inst.kind with
  | var declaration => exact .pure fun _ => trivial
  | _ => exact named

end

/-- What the instructions of a block define, those of the blocks they own aside. -/
def definedIn (m : Module) (block : BlockId) : Except Fault (List Key) := do
  return (← (← m.block block).insts.mapM fun id => do ownKeys m id (← m.inst id)).flatten

/-- The keys defined in a block and in the blocks under it. -/
def KeysWithin (m : Module) (depth : Nat) (block : BlockId) (keys : Multiset Key) : Prop :=
  ∃ list, m.collectWithin (definedIn m) depth block = .ok list ∧ keys = ↑list

theorem sum_ofList {α : Type} (lists : List (List α)) :
    (lists.map Multiset.ofList).sum = Multiset.ofList lists.flatten := by
  induction lists with
  | nil => rfl
  | cons list rest ih => rw [map_cons, sum_cons, ih, flatten_cons, Multiset.coe_add]

theorem instKeys_of_collected {own nested : List Key} (owns : (do ownKeys m id (← m.inst id)) = Except.ok own)
    (below : m.CollectedUnder (definedIn m) depth id nested) :
    ∃ inst, m.inst id = .ok inst ∧ InstKeys m (KeysWithin m depth) id inst (↑own + ↑nested) := by
  obtain ⟨inst, held, ownIs⟩ := bind_eq_ok.mp owns
  obtain ⟨_, lists, held', listed, rfl⟩ := below
  cases held.symm.trans held'
  refine ⟨inst, held, own, lists.map Multiset.ofList, ownIs, ?_, by rw [sum_ofList]⟩
  rw [forall₂_map_right_iff]
  exact listed.imp fun block list found => ⟨list, found, rfl⟩

theorem instKeys_of_each {insts : List InstId} {owns nested : List (List Key)}
    (each : Forall₂ (fun id own => (do ownKeys m id (← m.inst id)) = Except.ok own) insts owns)
    (below : Forall₂ (m.CollectedUnder (definedIn m) depth) insts nested) :
    ∃ parts, Forall₂ (fun id part => ∃ inst, m.inst id = .ok inst ∧
      InstKeys m (KeysWithin m depth) id inst part) insts parts ∧
      Multiset.ofList (owns.flatten ++ nested.flatten) = parts.sum := by
  induction each generalizing nested with
  | nil =>
    cases below
    exact ⟨[], .nil, rfl⟩
  | cons head _ ih =>
    cases below with
    | cons first rest =>
      obtain ⟨inst, held, counted⟩ := instKeys_of_collected head first
      obtain ⟨parts, holds, sum⟩ := ih rest
      refine ⟨_ :: parts, .cons ⟨inst, held, counted⟩ holds, ?_⟩
      simp only [flatten_cons, sum_cons, ← sum, ← Multiset.coe_add]
      abel

/-- What a block defines itself. -/
theorem definedIn_eq_ok {list : List Key} : definedIn m block = .ok list ↔ ∃ b owns, m.block block = .ok b ∧
      Forall₂ (fun id own => (do ownKeys m id (← m.inst id)) = Except.ok own) b.insts owns ∧
      list = owns.flatten := by
  unfold definedIn
  constructor
  · intro visited
    obtain ⟨b, found, rest⟩ := bind_eq_ok.mp visited
    obtain ⟨owns, owned, same⟩ := bind_eq_ok.mp rest
    cases same
    exact ⟨b, owns, found, mapM_eq_ok.mp owned, rfl⟩
  · rintro ⟨b, owns, found, owned, rfl⟩
    exact bind_eq_ok.mpr ⟨b, found, bind_eq_ok.mpr ⟨owns, mapM_eq_ok.mpr owned, rfl⟩⟩

theorem KeysWithin.succ {b : Block} (found : m.block block = .ok b) (counted : KeysWithin m (depth + 1) block keys) :
    ∃ parts, Forall₂ (fun id part => ∃ inst, m.inst id = .ok inst ∧
      InstKeys m (KeysWithin m depth) id inst part) b.insts parts ∧ keys = parts.sum := by
  obtain ⟨list, collected, rfl⟩ := counted
  obtain ⟨_, defined, nested, found', visited, below, rfl⟩ := Module.collectWithin_succ.mp collected
  obtain ⟨_, owns, found'', owned, rfl⟩ := definedIn_eq_ok.mp visited
  cases found.symm.trans found'
  cases found.symm.trans found''
  exact instKeys_of_each owned below

/-- Along with an instruction, the instructions of the blocks it owns are among these. -/
def Closed (m : Module) (reached : InstId → Prop) : Prop :=
  ∀ id inst block b, reached id → m.inst id = .ok inst → block ∈ inst.kind.children →
    m.block block = .ok b → ∀ inner ∈ b.insts, reached inner

/-- The instructions define results as their lowering does, and a block that one of them owns is ended
unless it is empty. -/
structure Fits (m : Module) (reached : InstId → Prop) : Prop where
  shaped : ∀ id inst, reached id → m.inst id = .ok inst → inst.Shaped
  ended : ∀ id inst block b, reached id → m.inst id = .ok inst → block ∈ inst.kind.children →
    m.block block = .ok b → b.insts ≠ [] → ∃ last, m.terminator? block = .ok (some last)

/-- A block with nothing but terminators defines nothing. -/
theorem KeysWithin.idle {b : Block} (found : m.block block = .ok b)
    (shaped : ∀ id ∈ b.insts, ∀ inst, m.inst id = .ok inst → inst.Shaped)
    (ends : ∀ id ∈ b.insts, ∃ inst, m.inst id = .ok inst ∧ inst.kind.isTerminator = true)
    (counted : KeysWithin m depth block keys) : keys = 0 := by
  cases depth with
  | zero =>
    obtain ⟨list, collected, -⟩ := counted
    cases collected
  | succ depth =>
    obtain ⟨parts, each, rfl⟩ := counted.succ found
    clear found counted
    generalize b.insts = insts at each ends shaped
    induction each with
    | nil => rfl
    | cons head _ ih =>
      obtain ⟨inst, held, counted⟩ := head
      obtain ⟨inst', held', isEnd⟩ := ends _ mem_cons_self
      cases held.symm.trans held'
      have whole : inst.kind.isControl = false := by
        cases kind : inst.kind <;> rw [kind] at isEnd <;> first | rfl | cases isEnd
      rw [sum_cons, counted.plain whole, results_of_terminator (shaped _ mem_cons_self inst held) isEnd,
        ih (fun id member => ends id (mem_cons_of_mem _ member))
          fun id member => shaped id (mem_cons_of_mem _ member)]
      rfl

theorem InstKeys.imp {under weaker : BlockId → Multiset Key → Prop} {inst : Inst}
    (implied : ∀ block keys, under block keys → weaker block keys) (counted : InstKeys m under id inst keys) :
    InstKeys m weaker id inst keys := by
  obtain ⟨own, parts, found, each, same⟩ := counted
  exact ⟨own, parts, found, each.imp implied, same⟩

/-- The instructions of a block are lowered to its layout, by induction on how deep its constructs
nest. -/
theorem ensures_body (options : Options) (closed : Closed m reached)
    (mentions : ∀ id inst key, reached id → m.inst id = .ok inst → Mentions m id inst key → allowed key)
    (depth : Nat) (scopes : Scopes) (block : BlockId)
    (inside : ∀ b, m.block block = .ok b → ∀ id ∈ b.insts, reached id) :
    Ensures (emitBodyWithin m options depth scopes block) fun _ L e => Lays m reached allowed L 0
      (fun keys => Fits m reached ∧ KeysWithin m depth block keys) (BodyCode m L depth scopes block) e := by
  induction depth generalizing scopes block with
  | zero => exact .fail _
  | succ depth ih =>
    unfold emitBodyWithin
    refine .check_next fun b found => ?_
    have each : ∀ id ∈ b.insts, Ensures (emitInst m options (emitBodyWithin m options depth) scopes id)
        fun _ L e => Lays m reached allowed L 0 (fun keys => Fits m reached ∧ ∃ inst, m.inst id = .ok inst ∧
            InstKeys m (KeysWithin m depth) id inst keys)
          (fun code => ∃ inst, m.inst id = .ok inst ∧ InstCode m L (BodyCode m L depth) scopes id inst code)
          e := by
      intro id member
      have isReached := inside b found id member
      cases held : m.inst id with
      | error fault =>
        unfold emitInst
        rw [held]
        exact .fail_bind _
      | ok inst =>
        have lowers : Lowers m reached allowed (emitBodyWithin m options depth) (fun L => BodyCode m L depth)
            (fun block keys => Fits m reached ∧ KeysWithin m depth block keys) inst.kind.children :=
          { laid := fun scopes child owned => ih scopes child fun c foundChild =>
              closed id inst child c isReached held owned foundChild
            idle := fun child owned c foundChild ends keys counted =>
              counted.2.idle foundChild (fun inner listed inst' held' => counted.1.shaped inner inst'
                (closed id inst child c isReached held owned foundChild inner listed) held') ends
            finished := fun child owned c foundChild inhabited keys counted =>
              counted.1.ended id inst child c isReached held owned foundChild inhabited }
        refine (ensures_inst held isReached options lowers (mentions id inst · isReached held) scopes).mono ?_
        intro _ L e laid
        refine laid.mono ?_ fun code holds => ⟨inst, rfl, holds⟩
        rintro keys ⟨fits, _, same, counted⟩
        cases same
        exact ⟨fits.shaped id inst isReached held, counted.imp fun block keys held => ⟨fits, held⟩⟩
    have listed : Ensures (b.insts.forM (emitInst m options (emitBodyWithin m options depth) scopes))
        fun _ L e => Lays m reached allowed L 0 (fun keys => Fits m reached ∧ KeysWithin m (depth + 1) block keys)
          (fun code => ∃ codes : List (List Instruction), code = codes.flatten ∧
            Forall₂ (fun id code => ∃ inst, m.inst id = .ok inst ∧
              InstCode m L (BodyCode m L depth) scopes id inst code) b.insts codes) e := by
      refine (Ensures.forM b.insts each).mono fun _ L e laid => (Lays.of_each laid).mono ?_ ?_
      · rintro _ ⟨fits, counted⟩
        obtain ⟨parts, holds, rfl⟩ := counted.succ found
        exact ⟨parts, holds.imp fun id keys held => ⟨fits, held⟩, rfl⟩
      · rintro _ ⟨codes, holds, rfl⟩
        exact ⟨codes, rfl, holds⟩
    by_cases empty : b.insts = []
    · rw [empty] at listed ⊢
      refine listed.bind fun _ => .emit fun L only made e' laid => ?_
      have dead : Lays m reached allowed L 0 (· = 0) (· = [deadEnd]) (.ofCode [only]) :=
        lays_plain rfl rfl made rfl
      refine (laid.append dead).mono (fun keys counted => ⟨keys, 0, counted, rfl, (add_zero keys).symm⟩) ?_
      rintro _ ⟨_, _, ⟨codes, rfl, none⟩, rfl, rfl⟩
      cases none
      exact ⟨b, found, .inl ⟨empty, rfl⟩⟩
    · have rest : (if b.insts.isEmpty = true then emit .unreachable [] else pure ()) = (pure () : Lower Unit) := by
        simp [empty]
      rw [rest, bind_pure_unit]
      refine listed.mono fun _ L e laid => laid.mono (fun _ counted => counted) ?_
      exact fun code holds => ⟨b, found, .inr ⟨empty, holds⟩⟩

end Shader.Lower
