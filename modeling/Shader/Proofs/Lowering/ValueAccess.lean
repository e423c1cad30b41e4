import Shader.Proofs.Lowering.Interning

/-!
Indexing into a value.

An access is a list of indices, each of which leads from a composite to one of its components. Known indices are
gathered into one instruction, and an index that is only known when the shader runs is the last one. Whatever the
instructions are, their result is what one index after the other leads to.
-/
namespace Shader

open Binary Instruction Option

/-- What a shader computes with: the bits of a scalar, or what a composite is made of. -/
inductive Datum where
  | scalar (bits : Word)
  | composite (parts : List Datum)

namespace Datum

def part? (index : Word) : Datum → Option Datum
  | .scalar _ => none
  | .composite parts => parts[index.toNat]?

/-- What one index after the other leads to. -/
def at? (datum : Datum) (indices : List Word) : Option Datum :=
  indices.foldlM (fun datum index => datum.part? index) datum

end Datum

/-- Whether the type has a component with this index, if it has components. -/
def Ty.inRange (index : Word) : Ty → Bool
  | .vector _ width => index < width
  | .matrix _ columns _ => index < columns
  | .array _ (.constant count) _ => index < count
  | _ => true

/-- The datum has the components of its type, and those of its components. -/
inductive Datum.Fits (m : Module) : Ty → Datum → Prop where
  | intro {ty : Ty} {datum : Datum} (part : Word → Datum)
      (found : ∀ index elem, m.elementType index ty = .ok elem → ty.inRange index = true →
        datum.part? index = some (part index))
      (fits : ∀ index elem, m.elementType index ty = .ok elem → ty.inRange index = true → Fits m elem (part index)) :
      Fits m ty datum

theorem Datum.Fits.of_parts {m : Module} {ty elem : Ty} {parts : List Datum} (each : ∀ part ∈ parts, part.Fits m elem)
    (uniform : ∀ index other, m.elementType index ty = .ok other → ty.inRange index = true →
      other = elem ∧ index.toNat < parts.length) : (composite parts).Fits m ty := by
  have found (index : Word) (bound : index.toNat < parts.length) :
      parts[index.toNat]? = some (parts[index.toNat]?.getD (.scalar 0)) := by
    simp [bound]
  refine .intro (fun index => parts[index.toNat]?.getD (.scalar 0)) (fun index other element inRange => ?_)
    fun index other element inRange => ?_
  · exact found index (uniform index other element inRange).2
  · obtain ⟨rfl, bound⟩ := uniform index other element inRange
    exact each _ (List.mem_of_getElem? (found index bound))

namespace Lower

open LowerState

/-- The indices lead from the one type to the other. They are the given words, if `number` says what those are that are
only known when the shader runs; of these there is one at most, since the components of a vector are scalars. -/
inductive Indexes (m : Module) (pool : Pool) (number : ValueId → Word) : Ty → List Value → List Word → Ty → Prop where
  | here {ty : Ty} : Indexes m pool number ty [] [] ty
  | known {ty elem target : Ty} {index : Value} {word : Word} {indices : List Value} {words : List Word}
      (isKnown : knownIn pool index = .ok (some word)) (element : m.elementType word ty = .ok elem)
      (inRange : ty.inRange word = true) (rest : Indexes m pool number elem indices words target) :
      Indexes m pool number ty (index :: indices) (word :: words) target
  | chosen {elem target : Ty} {width : Word} {index : ValueId} {indices : List Value} {words : List Word}
      (scalar : elem.isScalar = true) (inRange : number index < width)
      (rest : Indexes m pool number elem indices words target) :
      Indexes m pool number (.vector elem width) (.ssa index :: indices) (number index :: words) target

/-- How an access is made: the path of known words, the type it leads to, and the index that comes after it if there is
one. -/
structure Route where
  path : List Word
  reached : Ty
  last : Option ValueId

/-- The ids that the instructions of an access mention. -/
structure AccessIds where
  ty : Word
  result : Word
  object : Word
  vectorType : Word
  vector : Word
  index : Word

namespace Route

/-- Ask for the ids that are still needed and add the instructions. -/
def emit (m : Module) (ty result object : Word) : Route → Lower Unit
  | ⟨path, _, none⟩ => Lower.emit .compositeExtract ([.id ty, .id result, .id object] ++ path.map .literal)
  | ⟨[], _, some index⟩ => do
    let index ← valueId m (.ssa index)
    Lower.emit .vectorExtractDynamic [.id ty, .id result, .id object, .id index]
  | ⟨word :: path, reached, some index⟩ => do
    let vector ← fresh
    let vectorType ← typeId m reached
    Lower.emit .compositeExtract ([.id vectorType, .id vector, .id object] ++ (word :: path).map .literal)
    let index ← valueId m (.ssa index)
    Lower.emit .vectorExtractDynamic [.id ty, .id result, .id vector, .id index]

/-- Ask for the ids of the result and the object and go the route. -/
def lower (m : Module) (inst : Inst) (object : Value) (target : Ty) (route : Route) : Lower Unit := do
  let ty ← typeId m target
  let result ← resultId m inst
  route.emit m ty result (← valueId m object)

def code (ids : AccessIds) : Route → List Instruction
  | ⟨path, _, none⟩ => [⟨.compositeExtract, some ids.ty, some ids.result, .id ids.object :: path.map .literal⟩]
  | ⟨[], _, some _⟩ => [⟨.vectorExtractDynamic, some ids.ty, some ids.result, [.id ids.object, .id ids.index]⟩]
  | ⟨word :: path, _, some _⟩ =>
    [⟨.compositeExtract, some ids.vectorType, some ids.vector, .id ids.object :: (word :: path).map .literal⟩,
      ⟨.vectorExtractDynamic, some ids.ty, some ids.result, [.id ids.vector, .id ids.index]⟩]

/-- The route leads to where the indices do: its path is made of all those that are known. -/
structure Follows (route : Route) (m : Module) (pool : Pool) (number : ValueId → Word) (ty : Ty) (indices : List Value)
    (words : List Word) (target : Ty) : Prop where
  words : words = route.path ++ (route.last.map number).toList
  known : ∃ known, indices = known ++ (route.last.map Value.ssa).toList ∧ (∀ index, .ssa index ∉ known) ∧
    Indexes m pool number ty known route.path route.reached
  target : if route.last.isSome then ∃ width, route.reached = .vector target width else route.reached = target

end Route

/-- The ids are those of the type that is reached, of the result, of the object and of the index. A vector on the way
has a new id, and its type is the one that the path leads to. -/
structure AccessIds.Given (ids : AccessIds) (s t : LowerState) (inst : Inst) (object : Value) (target : Ty)
    (route : Route) : Prop where
  ty : HasType target ids.ty t
  result : ∃ value, inst.result? = some value ∧ (Key.value value, ids.result) ∈ t.bindings
  object : Resolves object ids.object t
  index : ∀ index, route.last = some index → (Key.value index, ids.index) ∈ t.bindings
  vector : route.path ≠ [] → route.last ≠ none → HasType route.reached ids.vectorType t ∧ ¬s.Taken ids.vector

end Lower

/-- What an instruction computes from what ids stand for. -/
def Binary.Instruction.compute (env : Word → Option Datum) (inst : Instruction) : Option Datum :=
  match inst.op, inst.operands with
  | .compositeExtract, .id object :: path => do (← env object).at? (path.flatMap Operand.words)
  | .vectorExtractDynamic, [.id vector, .id index] =>
    match env index with
    | some (.scalar bits) => do (← env vector).part? bits
    | _ => none
  | _, _ => none

/-- What ids stand for after the instructions. -/
def Binary.execute (env : Word → Option Datum) : List Instruction → Word → Option Datum
  | [] => env
  | inst :: code => execute (fun id => if inst.result = some id then inst.compute env else env id) code

namespace Lower

open LowerState

variable {m : Module} {pool : Pool} {number : ValueId → Word} {ty elem target : Ty} {indices : List Value}
  {words : List Word} {s t : LowerState} {inst : Inst} {object : Value} {route : Route} {ids : AccessIds}
variable {α : Type} {step : Lower α} {u : Unit}

namespace Indexes

/-- A datum of the type has the component. -/
theorem at? (valid : Indexes m pool number ty indices words target) {datum : Datum} (fits : datum.Fits m ty) :
    ∃ part, datum.at? words = some part ∧ part.Fits m target := by
  induction valid generalizing datum with
  | here => exact ⟨datum, rfl, fits⟩
  | known _ element inRange _ ih =>
    obtain ⟨part, found, inner⟩ := fits
    obtain ⟨last, reached, whole⟩ := ih (inner _ _ element inRange)
    refine ⟨last, ?_, whole⟩
    rw [Datum.at?, List.foldlM_cons, found _ _ element inRange]
    exact reached
  | chosen _ inRange _ ih =>
    obtain ⟨part, found, inner⟩ := fits
    obtain ⟨last, reached, whole⟩ := ih (inner _ _ rfl (by simpa [Ty.inRange] using inRange))
    refine ⟨last, ?_, whole⟩
    rw [Datum.at?, List.foldlM_cons, found _ _ rfl (by simpa [Ty.inRange] using inRange)]
    exact reached

/-- There is nothing to index into in a scalar. -/
theorem of_scalar (valid : Indexes m pool number elem indices words target) (scalar : elem.isScalar = true) :
    indices = [] ∧ words = [] ∧ target = elem := by
  cases valid with
  | here => exact ⟨rfl, rfl, rfl⟩
  | known _ element => cases elem <;> cases scalar <;> cases element
  | chosen => cases scalar

/-- Known indices are gathered until there is none or one that is not known. -/
theorem extract_run (valid : Indexes m pool number ty indices words target) : ∃ route : Route,
    route.Follows m pool number ty indices words target ∧
    ∀ {tyId result source path s}, pool.Within s.pool → (extract m tyId result source ty path indices).run s =
      (Route.emit m tyId result source { route with path := path ++ route.path }).run s := by
  induction valid with
  | @here ty =>
    refine ⟨⟨[], ty, none⟩, ⟨rfl, ⟨[], rfl, by simp, .here⟩, rfl⟩, fun _ => ?_⟩
    rw [List.append_nil]
    rfl
  | @known ty elem target index word indices words isKnown element inRange _ ih =>
    obtain ⟨route, follows, runs⟩ := ih
    obtain ⟨known, split, noneOpen, leads⟩ := follows.known
    refine ⟨{ route with path := word :: route.path }, ⟨?_, ⟨index :: known, ?_, ?_, ?_⟩, follows.target⟩, ?_⟩
    · rw [follows.words]
      rfl
    · rw [split]
      rfl
    · rintro open_ member
      rcases List.mem_cons.mp member with rfl | later
      · cases isKnown
      · exact noneOpen open_ later
    · exact .known isKnown element inRange leads
    · intro tyId result source path s within
      have asked : (knownIndex? index).run s = .ok (some word, s) := by
        cases index with
        | constant id =>
          change (askPool (·.word? id)).run s = _
          exact askPool_of_ok (within.word? isKnown)
        | literal other =>
          cases isKnown
          rfl
        | ssa => cases isKnown
      have stepped : (check (m.elementType word ty)).run s = .ok (elem, s) := by
        rw [element]
        rfl
      refine (run_bind_ok asked).trans ((run_bind_ok stepped).trans ?_)
      rw [runs within, List.append_assoc]
      rfl
  | @chosen elem target width index indices words scalar inRange rest =>
    obtain ⟨rfl, rfl, rfl⟩ := rest.of_scalar scalar
    refine ⟨⟨[], .vector target width, some index⟩, ⟨rfl, ⟨[], rfl, by simp, .here⟩, ⟨width, rfl⟩⟩, ?_⟩
    intro tyId result source path s _
    cases path with
    | nil => rfl
    | cons word path => simp [extract, knownIndex?, Route.emit]

end Indexes

/-- A step that adds nothing to the function leaves it as it is. -/
theorem Gathers.run {known : α → LowerState → Prop} {a : α}
    (gathered : Gathers (fun _ => True) step known) (sound : s.Sound) (ran : step.run s = .ok (a, t)) :
    t.Sound ∧ s.Grows t ∧ t.code = s.code ∧ s.out.ids.next.toNat ≤ t.out.ids.next.toNat ∧
      ∀ u, t.Grows u → known a u := by
  obtain ⟨kept, e, reaches, holds⟩ := gathered s a t sound ran
  have silent := (holds ⟨t, e.loose⟩ ⟨.refl t, fun _ taken => taken⟩).1
  refine ⟨kept, reaches.grows, ?_, ?_, fun u grows => (holds ⟨u, e.loose⟩ ⟨grows, fun _ taken => taken⟩).2⟩
  · simp [reaches.code, silent.locals, silent.code]
  · rw [reaches.next]
    omega

/-- What the addition of an instruction with a result does to the state. -/
theorem emit_typed_run {op : Opcode} {ty id : Word} {rest operands : List Operand}
    (hasType : op.grammar.resultType = true) (hasResult : op.grammar.result = true)
    (classified : classify op.grammar.rest op.grammar.fixed rest = operands) (sound : s.Sound)
    (ran : (emit op (.id ty :: .id id :: rest)).run s = .ok (u, t)) :
    t.Sound ∧ s.Grows t ∧ t.code = s.code.map (·.extend [⟨op, some ty, some id, operands⟩]) := by
  obtain ⟨code, inst, inside, made, rfl⟩ := emit_run ran
  refine ⟨{ sound with }, { Grows.refl s with }, ?_⟩
  rw [make_typed hasType hasResult made, classified, inside]
  rfl

theorem classify_literals (position : Nat) (path : List Word) :
    Repetition.literals.classify position (path.map .literal) = path.map .literal := by
  induction path generalizing position with
  | nil => rfl
  | cons word path ih => exact congrArg (_ :: ·) (ih _)

theorem classify_extract (source : Word) (path : List Word) :
    classify Opcode.compositeExtract.grammar.rest Opcode.compositeExtract.grammar.fixed
      (.id source :: path.map .literal) = .id source :: path.map .literal := by
  refine congrArg (_ :: ·) ?_
  cases path with
  | nil => rfl
  | cons word path => exact classify_literals 0 (word :: path)

/-- The code of a route is added, with the ids that are asked for on the way. -/
theorem Route.emit_run {ty id source : Word} (sound : s.Sound)
    (ran : (route.emit m ty id source).run s = .ok (u, t)) : s.Grows t ∧ ∃ vectorType vector index,
      (∀ last, route.last = some last → (Key.value last, index) ∈ t.bindings) ∧
      (route.path ≠ [] → route.last ≠ none → HasType route.reached vectorType t ∧ ¬s.Taken vector) ∧
      t.code = s.code.map (·.extend (route.code ⟨ty, id, source, vectorType, vector, index⟩)) := by
  obtain ⟨path, reached, _ | last⟩ := route
  · obtain ⟨-, grows, code⟩ := emit_typed_run rfl rfl (classify_extract source path) sound ran
    exact ⟨grows, 0, 0, 0, by simp, by simp, code⟩
  cases path with
  | nil =>
    obtain ⟨index, middle, asked, ran⟩ := run_bind_eq_ok.mp ran
    obtain ⟨kept, grows, same, -, bound⟩ := (gathers_valueId m fun _ _ => trivial).run sound asked
    obtain ⟨-, later, code⟩ := emit_typed_run rfl rfl rfl kept ran
    refine ⟨grows.trans later, 0, 0, index, fun _ is => ?_, by simp, same ▸ code⟩
    cases is
    exact bound t later
  | cons word path =>
    obtain ⟨vector, first, taken, ran⟩ := run_bind_eq_ok.mp ran
    obtain ⟨isNext, isFirst, -⟩ := fresh_run taken
    have start : s.Grows first := isFirst ▸ { Grows.refl s with }
    have fresh : first.Sound := isFirst ▸ { sound with }
    obtain ⟨vectorType, second, asked, ran⟩ := run_bind_eq_ok.mp ran
    obtain ⟨kept, grows, same, -, typed⟩ := (gathers_typeId m reached).run fresh asked
    obtain ⟨_, third, emitted, ran⟩ := run_bind_eq_ok.mp ran
    obtain ⟨kept, growsMore, extracted⟩ := emit_typed_run rfl rfl (classify_extract source (word :: path)) kept emitted
    obtain ⟨index, fourth, asked, ran⟩ := run_bind_eq_ok.mp ran
    obtain ⟨kept, grown, sameToo, -, bound⟩ := (gathers_valueId m fun _ _ => trivial).run kept asked
    obtain ⟨-, later, code⟩ := emit_typed_run rfl rfl rfl kept ran
    refine ⟨start.trans (grows.trans (growsMore.trans (grown.trans later))), vectorType, vector, index, ?_, ?_, ?_⟩
    · intro _ is
      cases is
      exact bound t later
    · refine fun _ _ => ⟨typed t (growsMore.trans (grown.trans later)), ?_⟩
      rw [isNext]
      exact Nat.lt_irrefl _
    · rw [code, sameToo, extracted, same, map_map, isFirst]
      rfl

/-- The instructions of a route compute what the words lead to. -/
theorem Route.execute_code (follows : route.Follows m pool number ty indices words target) {env : Word → Option Datum}
    {datum part : Datum} (object : env ids.object = some datum) (reached : datum.at? words = some part)
    (index : ∀ last, route.last = some last → env ids.index = some (.scalar (number last)))
    (apart : route.path ≠ [] → route.last ≠ none → env ids.vector = none) :
    execute env (route.code ids) ids.result = some part := by
  have literals (path : List Word) : (path.map Operand.literal).flatMap Operand.words = path := by
    simp [List.flatMap_map, Operand.words]
  rw [follows.words] at reached
  obtain ⟨path, via, _ | last⟩ := route
  · simpa [code, execute, compute, object, literals] using reached
  · have isNumber := index last rfl
    cases path with
    | nil => simpa [code, execute, compute, object, isNumber, Datum.at?] using reached
    | cons word path =>
      have other : ids.vector ≠ ids.index := by
        intro same
        cases (same ▸ apart (by simp) (by simp)).symm.trans isNumber
      have inTurn : (datum.at? (word :: path)).bind (·.part? (number last)) = some part := by
        simpa [Datum.at?, List.foldlM_append, bind_assoc] using reached
      simpa only [code, execute, compute, object, literals, other, isNumber, if_false, if_true,
        some.injEq, bind_eq_bind, bind_some] using inTurn

theorem run_bind_congr {β : Type} {next other : α → Lower β}
    (same : ∀ a t, step.run s = .ok (a, t) → (next a).run t = (other a).run t) :
    (step >>= next).run s = (step >>= other).run s := by
  rw [StateT.run_bind, StateT.run_bind]
  cases ran : step.run s with
  | error failure => rfl
  | ok pair => exact same pair.1 pair.2 ran

theorem resultType_run (result : resultTy m inst = .ok target) : (resultType m inst).run s = .ok (target, s) := by
  unfold resultTy at result
  split at result
  · obtain ⟨definition, found, isTy⟩ := bind_eq_ok.mp result
    cases isTy
    simp [resultType, resultOf, *, check]
  · cases result

/-- The requests leave the constants as they are, so that the type of the object and the known indices stay the same. -/
theorem emitAccess_run (sound : s.Sound) (typed : m.typeIn s.pool object = .ok ty)
    (result : resultTy m inst = .ok target) (plain : target.pointee? = none)
    (valid : Indexes m s.pool number ty indices words target) :
    ∃ route : Route, route.Follows m s.pool number ty indices words target ∧
      (emitAccess m inst object indices).run s = (route.lower m inst object target).run s := by
  obtain ⟨route, follows, extracts⟩ := valid.extract_run
  refine ⟨route, follows, (run_bind_ok (resultType_run result)).trans (run_bind_congr fun tyId first asked => ?_)⟩
  obtain ⟨kept, grows, -⟩ := (gathers_typeId m target).run sound asked
  refine run_bind_congr fun id second asked => ?_
  obtain ⟨kept, growsMore, -⟩ := (gathers_resultId m fun _ _ => trivial).run kept asked
  refine run_bind_congr fun source third asked => ?_
  obtain ⟨-, grown, -⟩ := (gathers_valueId m fun _ _ => trivial).run kept asked
  have within : s.pool.Within third.pool := (grows.trans (growsMore.trans grown)).pool
  have whole : target.pointee?.isSome = false := by simp [plain]
  simp only [whole, Bool.false_eq_true, if_false]
  exact (run_bind_ok (askPool_of_ok (Module.typeIn_within within typed))).trans (extracts within)

theorem Route.lower_run (sound : s.Sound) (ran : (route.lower m inst object target).run s = .ok (u, t)) :
    ∃ ids : AccessIds, ids.Given s t inst object target route ∧ t.code = s.code.map (·.extend (route.code ids)) := by
  obtain ⟨tyId, first, asked, ran⟩ := run_bind_eq_ok.mp ran
  obtain ⟨kept, grows, same, next, hasType⟩ := (gathers_typeId m target).run sound asked
  obtain ⟨id, second, asked, ran⟩ := run_bind_eq_ok.mp ran
  obtain ⟨kept, growsMore, sameToo, nextToo, named⟩ := (gathers_resultId m fun _ _ => trivial).run kept asked
  obtain ⟨source, third, asked, ran⟩ := run_bind_eq_ok.mp ran
  obtain ⟨kept, grown, still, nextStill, resolves⟩ := (gathers_valueId m fun _ _ => trivial).run kept asked
  obtain ⟨later, vectorType, vector, index, bound, vectorIs, code⟩ := Route.emit_run kept ran
  refine ⟨⟨tyId, id, source, vectorType, vector, index⟩, ?_, by rw [code, still, sameToo, same]⟩
  exact
    { ty := hasType t (growsMore.trans (grown.trans later))
      result := named t (grown.trans later)
      object := resolves t later
      index := bound
      vector := fun long more => (vectorIs long more).imp_right fun fresh taken =>
        fresh (Nat.lt_of_lt_of_le taken (next.trans (nextToo.trans nextStill))) }

/-- An access that is no pointer is lowered to one extraction, to one choice of a component, or to an extraction and a
choice from its result. Nothing but a request for an id or the addition of one of these can fail. Whatever the object
and the index stand for, the result stands for what one index after the other leads to. A vector on the way has a new
id, which stands for nothing before. -/
theorem access_stepwise (sound : s.Sound) (typed : m.typeIn s.pool object = .ok ty)
    (result : resultTy m inst = .ok target) (plain : target.pointee? = none)
    (valid : Indexes m s.pool number ty indices words target) :
    ∃ route : Route, route.Follows m s.pool number ty indices words target ∧
      (emitAccess m inst object indices).run s = (route.lower m inst object target).run s ∧
      ∀ t, (emitAccess m inst object indices).run s = .ok ((), t) → ∃ ids : AccessIds,
        ids.Given s t inst object target route ∧ t.code = s.code.map (·.extend (route.code ids)) ∧
        ∀ env datum, env ids.object = some datum → datum.Fits m ty →
          (∀ last, route.last = some last → env ids.index = some (.scalar (number last))) →
          (route.path ≠ [] → route.last ≠ none → env ids.vector = none) →
          ∃ part, datum.at? words = some part ∧ part.Fits m target ∧
            execute env (route.code ids) ids.result = some part := by
  obtain ⟨route, follows, runs⟩ := emitAccess_run sound typed result plain valid
  refine ⟨route, follows, runs, fun t ran => ?_⟩
  obtain ⟨ids, given, code⟩ := Route.lower_run sound (runs.symm.trans ran)
  refine ⟨ids, given, code, fun env datum isObject fits isIndex isNew => ?_⟩
  obtain ⟨part, reached, whole⟩ := valid.at? fits
  exact ⟨part, reached, whole, Route.execute_code follows isObject reached isIndex isNew⟩

/-- A constant matrix, an index, and the component that a known index and this one lead to. -/
def cell : Module where
  constants := ⟨#[.scalar (.f32 0x3f800000), .scalar (.f32 0x40000000), .composite (.vector .f32 2) [⟨0⟩, ⟨1⟩],
    .composite (.vector .f32 2) [⟨1⟩, ⟨0⟩], .composite (.matrix .f32 2 2) [⟨2⟩, ⟨3⟩]]⟩
  values := #[⟨.u32, none, .functionParam ⟨0⟩⟩, ⟨.f32, none, .result ⟨0⟩⟩]

def cellAccess : Inst := ⟨.access (.constant ⟨4⟩) [.literal 1, .ssa ⟨0⟩], [⟨1⟩], ⟨0⟩⟩

def cellStart : LowerState where
  pool := cell.constants
  code := some ⟨⟨.function, none, none, []⟩, [], #[], #[], ⟨⟨.label, none, none, []⟩, #[]⟩⟩

/-- What the constant matrix stands for. -/
def cellDatum : Datum :=
  .composite [.composite [.scalar 0x3f800000, .scalar 0x40000000], .composite [.scalar 0x40000000, .scalar 0x3f800000]]

theorem cellDatum_fits : cellDatum.Fits cell (.matrix .f32 2 2) := by
  have pair {elem : Ty} {a b : Datum} (first : a.Fits cell elem) (second : b.Fits cell elem) :
      ∀ part ∈ [a, b], part.Fits cell elem := by
    simp [first, second]
  have scalar (bits : Word) : (Datum.scalar bits).Fits cell .f32 :=
    .intro (fun _ => .scalar 0) (fun _ _ element => by cases element) fun _ _ element => by cases element
  have column (first second : Word) :
      (Datum.composite [.scalar first, .scalar second]).Fits cell (.vector .f32 2) := by
    refine .of_parts (pair (scalar first) (scalar second)) fun index other element inRange => ?_
    cases element
    exact ⟨rfl, UInt32.lt_iff_toNat_lt.mp (by simpa [Ty.inRange] using inRange)⟩
  refine .of_parts (pair (column _ _) (column _ _)) fun index other element inRange => ?_
  cases element
  exact ⟨rfl, UInt32.lt_iff_toNat_lt.mp (by simpa [Ty.inRange] using inRange)⟩

theorem cell_extracted_chosen : ∃ t ids route env,
    (emitAccess cell cellAccess (.constant ⟨4⟩) [.literal 1, .ssa ⟨0⟩]).run cellStart = .ok ((), t) ∧
      Route.Follows route cell cell.constants (fun _ => 1) (.matrix .f32 2 2) [.literal 1, .ssa ⟨0⟩] [1, 1] .f32 ∧
      t.code = cellStart.code.map (·.extend (route.code ids)) ∧
      (route.code ids).map op = [.compositeExtract, .vectorExtractDynamic] ∧
      env ids.object = some cellDatum ∧ env ids.index = some (.scalar 1) ∧
      execute env (route.code ids) ids.result = some (.scalar 0x3f800000) := by
  obtain ⟨⟨⟨⟩, t⟩, ran, code⟩ : ∃ result,
      (emitAccess cell cellAccess (.constant ⟨4⟩) [.literal 1, .ssa ⟨0⟩]).run cellStart = .ok result ∧
        (result.2.code.map fun code => code.current.body.toList) =
          some [⟨.compositeExtract, some 4, some 10, [.id 5, .literal 1]⟩,
            ⟨.vectorExtractDynamic, some 1, some 2, [.id 10, .id 11]⟩] := by
    decide +kernel
  have sound : cellStart.Sound := by
    constructor <;> simp [cellStart, bindings, Assembly.empty]
  have valid : Indexes cell cell.constants (fun _ => 1) (.matrix .f32 2 2) [.literal 1, .ssa ⟨0⟩] [1, 1] .f32 :=
    .known rfl rfl rfl (.chosen rfl (by decide) .here)
  obtain ⟨route, follows, -, emits⟩ := access_stepwise sound
    (show cell.typeIn cell.constants (.constant ⟨4⟩) = _ from rfl)
    (show resultTy cell cellAccess = _ from rfl) rfl valid
  obtain ⟨ids, -, added, computes⟩ := emits t ran
  have isCode : route.code ids = [⟨.compositeExtract, some 4, some 10, [.id 5, .literal 1]⟩,
      ⟨.vectorExtractDynamic, some 1, some 2, [.id 10, .id 11]⟩] := by
    have whole : ((cellStart.code.map (·.extend (route.code ids))).map fun code => code.current.body.toList) =
        some (route.code ids) := by
      obtain ⟨_ | ⟨word, path⟩, reached, _ | last⟩ := route <;> rfl
    exact some.inj (whole.symm.trans (added ▸ code))
  -- The ids of the object and of the index are those that the code mentions.
  obtain ⟨object, index, vector⟩ : ids.object = 5 ∧ ids.index = 11 ∧ ids.vector = 10 := by
    obtain ⟨_ | ⟨word, path⟩, reached, _ | last⟩ := route <;> simp [Route.code] at isCode
    simp [isCode]
  let env : Word → Option Datum := fun id =>
    if id = 5 then some cellDatum else if id = 11 then some (.scalar 1) else none
  obtain ⟨part, reached, -, computed⟩ := computes env cellDatum (by simp [env, object]) cellDatum_fits
    (fun _ _ => by simp [env, index]) (fun _ _ => by simp [env, vector])
  cases reached
  exact ⟨t, ids, route, env, ran, follows, added, by simp [isCode], by simp [env, object], by simp [env, index],
    computed⟩

end Lower
end Shader
