import Shader.Proofs.Lowering.Guarded

/-!
Lowering does not go round in circles.

Types are declared after the structs that they are built from, constants after their elements and blocks inside of the
blocks around them. Where no struct, constant or block is met on a way from itself, each of these ways comes to its end.
Lowering stores constants of its own while it follows them: numbers, which refer to nothing, and vectors of numbers.
-/
namespace Shader

open Binary Pool

variable {m : Module}

theorem Acyclic.of_le {α : Type} {refers others : α → α → Prop} (acyclic : Acyclic others)
    (fewer : ∀ a b, refers a b → others a b) : Acyclic refers :=
  fun a circle => acyclic a (circle.lift id fewer)

/-- A node that is referred to from behind those of an acyclic relation refers to nothing, so no circle goes through
it. -/
theorem Acyclic.extend {α : Type} {refers others : α → α → Prop} (acyclic : Acyclic refers)
    (others_of : ∀ {a b}, others a b → refers a b ∨ ∀ c, ¬ others b c) : Acyclic others := by
  have along {a b : α} (way : Relation.TransGen others a b) : Relation.TransGen refers a b ∨ ∀ c, ¬ others b c := by
    induction way with
    | single reference => exact (others_of reference).imp_left .single
    | tail _ reference ih =>
      have before := ih.resolve_right fun last => last _ reference
      exact (others_of reference).imp_left before.tail
  intro a circle
  obtain ⟨b, reference, -⟩ := Relation.TransGen.head'_iff.mp circle
  exact (along circle).elim (acyclic a) fun last => last b reference

namespace Pool

variable {pool : Pool} {constant : Constant} {id inner : ConstId}
variable {value : Scalar}

/-- What a constant that is stored refers to, and nothing else, is new. -/
theorem Contains.of_insert (contains : (pool.insert constant).2.Contains id inner) :
    pool.Contains id inner ∨ inner ∈ constant.parts := by
  obtain ⟨stored, found, member⟩ := contains
  by_cases known : constant.canonical ∈ pool.items
  · rw [insert_of_mem known] at found
    exact .inl ⟨stored, found, member⟩
  · rw [get_eq_ok, insert_of_not_mem known, Option.mem_def, Array.getElem?_push] at found
    split at found
    · cases found
      exact .inr (Constant.mem_parts_canonical.mp member)
    · exact .inl ⟨stored, get_eq_ok.mpr found, member⟩

theorem not_contains_of_scalar (found : pool.get id = .ok (.scalar value)) : ¬ pool.Contains id inner := by
  rintro ⟨stored, held, member⟩
  cases found.symm.trans held
  cases member

theorem Contains.of_insert_scalar (contains : (pool.insert (.scalar value)).2.Contains id inner) :
    pool.Contains id inner :=
  contains.of_insert.resolve_right (by simp [Constant.parts])

/-- A vector of a number that is stored closes no circle. -/
theorem acyclic_insert_splat (ty : Ty) (count : UInt32) (acyclic : Acyclic pool.Contains)
    (found : pool.get id = .ok (.scalar value)) : Acyclic (pool.insert (.splat ty id count)).2.Contains := by
  refine acyclic.extend fun contains => contains.of_insert.imp_right fun member => ?_
  obtain rfl := List.mem_singleton.mp member
  exact fun _ => not_contains_of_scalar (pool.within_insert _ _ _ found)

theorem Contains.of_element {index : Nat} (picked : pool.element id index = .ok inner) : pool.Contains id inner := by
  obtain ⟨stored, found, rest⟩ := bind_eq_ok.mp picked
  refine ⟨stored, found, ?_⟩
  split at rest
  · split at rest
    · cases rest
      exact List.mem_of_getElem? ‹_›
    · cases rest
  · cases rest
    exact List.mem_singleton_self _
  · cases rest

end Pool

/-- The failure of going round in circles. -/
def Failure.isCircular : Failure → Bool
  | .fault .circular => true
  | _ => false

theorem Failure.not_circular {failure : Failure} (allowed : failure.isPlain = true ∨ failure.ofControlFlow = true) :
    failure.isCircular = false := by
  unfold isCircular
  split
  · simp [isPlain, Fault.isPlain, ofControlFlow, Fault.ofControlFlow] at allowed
  · rfl

namespace Lower

variable {keep : Pool → Prop} {options : Options} {constant : ConstId} {refers : ConstId → ConstId → Prop} {depth : Nat}

/-- The property of steps that do not go round in circles, as long as something is known of the constants. -/
abbrev Ending (keep : Pool → Prop) : Property := Guarding keep Failure.isCircular

/-- Constants refer to each other in the given way at most. -/
abbrev RefersWithin (refers : ConstId → ConstId → Prop) (pool : Pool) : Prop := ∀ a b, pool.Contains a b → refers a b

/-- No constant is built from itself. -/
abbrev Circleless (pool : Pool) : Prop := Acyclic pool.Contains

instance : Guards (RefersWithin refers) Failure.isCircular where
  plain plain := Failure.not_circular (.inl plain)
  scalar _ held a b contains := held a b contains.of_insert_scalar

instance guards_circleless : Guards Circleless Failure.isCircular where
  plain plain := Failure.not_circular (.inl plain)
  scalar _ held := held.of_le fun _ _ => Contains.of_insert_scalar

instance : Tolerant (Ending keep) := ⟨fun ofControl => ⟨.throw (Failure.not_circular (.inr ofControl))⟩⟩

section
variable [Guards keep Failure.isCircular]

theorem ending_structTypeWithin {struct : StructId} (shallow : Shallow m.Includes depth struct) :
    Has (Ending keep) (structTypeWithin m depth struct) := by
  induction depth generalizing struct with
  | zero => cases shallow
  | succ depth ih =>
    have declared (id : Word) :
        Has (Ending keep) (declareStruct m (typeIdWith (structTypeWithin m depth)) struct id) :=
      has_declareStruct_of fun found member listed => has_typeIdWith_of fun inner part =>
        ih (shallow inner ⟨_, found, member, listed, part⟩)
    exact guarding_remember

/-- Structs are declared after those in the types of their members. -/
theorem ending_typeId (structs : Acyclic m.Includes) (ty : Ty) : Has (Ending keep) (typeId m ty) :=
  has_typeIdWith_of fun struct _ => ending_structTypeWithin (Module.tabled_includes.shallow structs struct)

/-- Blocks are lowered inside of those around them. -/
theorem ending_emitBodyWithin [HoldsOverValues m (fun _ => True) (Ending keep)] {scopes : Scopes} {block : BlockId}
    (shallow : Shallow m.Encloses depth block) : Has (Ending keep) (emitBodyWithin m options depth scopes block) := by
  induction depth generalizing scopes block with
  | zero => cases shallow
  | succ depth ih =>
    refine .check_next fun b found => ?_
    have each : Has (Ending keep) (b.insts.forM (emitInst m options (emitBodyWithin m options depth) scopes)) :=
      .forM_of fun id member => has_emitInst_of fun held inner child owned =>
        ih (shallow child (Module.encloses_of_mem found member held owned))
    infer_instance

end

/-- While a constant is declared the pool gets new numbers, but no constant refers to more than before. -/
theorem ending_constantIdWithin (structs : Acyclic m.Includes) (acyclic : Acyclic refers)
    (shallow : Shallow refers depth constant) :
    Has (Ending (RefersWithin refers)) (constantIdWithin m depth constant) := by
  induction depth generalizing constant with
  | zero => cases shallow
  | succ depth ih =>
    have typed (ty : Ty) : Has (Ending (RefersWithin refers)) (typeId m ty) := ending_typeId structs ty
    have zero : Has (Ending (RefersWithin refers)) (askPool (·.allZero constant)) := by
      refine ⟨.get_bind fun s held => ?_⟩
      have ends : Harmless false (s.pool.allZero constant) :=
        harmless_allZeroWithin (.inr (tabled_contains.shallow (acyclic.of_le held) constant))
      exact (Has.check : Has (Ending (RefersWithin refers)) _).has
    have declaring : HoldsOverConstants m (fun _ => True) (Ending (RefersWithin refers)) :=
      { typeId := fun ty _ => typed ty
        nullId := fun ty _ => has_nullId_of (typed ty.normal)
        typeOf := fun each => .next fun ty => each ty trivial }
    refine has_constantIdWithin_of zero fun index => ⟨?_⟩
    rw [askPool, bind_assoc]
    refine .get_bind fun s held => (Has.check_next fun element picked => ?_ : Has (Ending (RefersWithin refers)) _).has
    exact ih (shallow element (held _ _ (.of_element picked)))

theorem ending_constantId (structs : Acyclic m.Includes) : Has (Ending Circleless) (constantId m constant) :=
  ⟨.get_bind_of (fun s _ => (fun _ _ => id : RefersWithin s.pool.Contains s.pool)) (fun _ held _ => held.of_le)
    fun _ held =>
    (ending_constantIdWithin structs held (tabled_contains.shallow held constant)).has⟩

theorem ending_internSplats {ty : Ty} {one zero : Scalar} {count : UInt32} :
    Has (Ending Circleless) (internSplats ty one zero count) := by
  constructor
  constructor
  · intro s pair t held ran
    cases ran
    have numbers := guards_circleless.scalar zero (guards_circleless.scalar one held)
    have ones := acyclic_insert_splat ty count numbers
      (within_insert _ _ _ _ (get_insert s.pool (.scalar one)))
    exact acyclic_insert_splat ty count ones (within_insert _ _ _ _ (get_insert _ (.scalar zero)))
  · intro s failure held ran
    cases ran

theorem holdsOverValues_ending (structs : Acyclic m.Includes) : HoldsOverValues m (fun _ => True) (Ending Circleless) :=
  holdsOverValues_guarding (ending_typeId structs) (fun _ => ending_constantId structs)
    fun _ _ _ _ => ending_internSplats

theorem ending_emitFunction (structs : Acyclic m.Includes) (blocks : m.Acyclic) (ref : FuncId) :
    Has (Ending Circleless) (emitFunction m options ref) := by
  have values := holdsOverValues_ending structs
  have uses : ReadsUses m (Ending Circleless) := by
    refine ⟨fun block => ?_⟩
    have ends : Harmless false (m.valuesUsedUnder block) := harmless_valuesUsedUnder (.inr blocks)
    infer_instance
  exact has_emitFunction fun function _ => ending_emitBodyWithin (blocks.shallow function.entry)

/-- From the state, the step does not go round in circles, and it leaves no constant that is built from itself. -/
def Ends {α : Type} (step : Lower α) (s : LowerState) : Prop :=
  step.run s ≠ .error (.fault .circular) ∧ ∀ a t, step.run s = .ok (a, t) → Acyclic t.pool.Contains

theorem Guarded.ends {α : Type} {step : Lower α} (guarded : Has (Ending Circleless) step) {s : LowerState}
    (held : Acyclic s.pool.Contains) : Ends step s :=
  ⟨fun failed => Bool.noConfusion (guarded.has.safe held failed), fun _ _ ran => guarded.has.keeps held ran⟩

end Lower

open Lower in
/-- A module is lowered without going round in circles if no struct, constant or block is met on a way from itself. The
same goes for every type, constant, block and function of it, whatever was declared and stored before. -/
theorem Module.lowering_ends (structs : Shader.Acyclic m.Includes) (constants : Shader.Acyclic m.constants.Contains)
    (blocks : m.Acyclic) (options : Options) :
    m.generate options ≠ .error (.fault .circular) ∧ ∀ s : LowerState, Shader.Acyclic s.pool.Contains →
      (∀ ty, Ends (typeId m ty) s ∧ Ends (nullId m ty) s ∧ Ends (undefId m ty) s) ∧
      (∀ constant, Ends (constantId m constant) s) ∧ (∀ block, Ends (emitBody m options block) s) ∧
      ∀ ref, Ends (emitFunction m options ref) s := by
  have values := holdsOverValues_ending structs
  have functions (ref : FuncId) : Has (Ending Circleless) (emitFunction m options ref) :=
    ending_emitFunction structs blocks ref
  have body (block : BlockId) : Has (Ending Circleless) (emitBody m options block) :=
    ending_emitBodyWithin (blocks.shallow block)
  refine ⟨fun failed => ?_, fun s held => ⟨fun ty => ⟨?_, ?_, ?_⟩, fun constant => ?_, fun block => ?_, fun ref => ?_⟩⟩
  · exact Bool.noConfusion (generate_safe (guarded_emitModule functions) constants failed)
  · exact Guarded.ends (ending_typeId structs ty) held
  · exact Guarded.ends (values.nullId ty trivial) held
  · exact Guarded.ends (values.undefId ty trivial) held
  · exact Guarded.ends (ending_constantId structs) held
  · exact Guarded.ends (body block) held
  · exact Guarded.ends (functions ref) held

/-- Variables of a struct with an array of another one and of a matrix of equal columns, and a function with a
conditional in a branch of a conditional. -/
def Module.layered : Module where
  structs := #[⟨none, [⟨none, .f32, 0⟩], false⟩, ⟨none, [⟨none, .array (.struct ⟨0⟩) (.constant 2) 16, 0⟩], true⟩]
  constants := ⟨#[.scalar (.f32 1), .splat (.vector .f32 2) ⟨0⟩ 2, .splat (.matrix .f32 2 2) ⟨1⟩ 2,
    .scalar (.bool true)]⟩
  values := #[⟨.pointer .privateLocal (.struct ⟨1⟩) .readWrite, none, .result ⟨0⟩⟩,
    ⟨.pointer .privateLocal (.matrix .f32 2 2) .readWrite, none, .result ⟨1⟩⟩]
  insts := #[⟨.var {}, [⟨0⟩], ⟨0⟩⟩, ⟨.var { initializer := some (.constant ⟨2⟩) }, [⟨1⟩], ⟨0⟩⟩,
    ⟨.conditional ⟨.constant ⟨3⟩, ⟨2⟩, ⟨3⟩, [⟨5⟩]⟩, [], ⟨1⟩⟩, ⟨.ret none, [], ⟨1⟩⟩,
    ⟨.conditional ⟨.constant ⟨3⟩, ⟨4⟩, ⟨5⟩, []⟩, [], ⟨3⟩⟩, ⟨.exitIf ⟨2⟩ [], [], ⟨3⟩⟩]
  blocks := #[{ insts := [⟨0⟩, ⟨1⟩] }, { insts := [⟨2⟩, ⟨3⟩] }, { parent := some ⟨2⟩ },
    { insts := [⟨4⟩, ⟨5⟩], parent := some ⟨2⟩ }, { parent := some ⟨4⟩ }, { parent := some ⟨4⟩ }]
  functions := #[⟨"f", [], .void, .none, none, ⟨1⟩⟩]

theorem Module.layered_ends : (∃ lowered, layered.generate {} = .ok lowered ∧ lowered.assembly.functions.size = 1) ∧
    layered.generate {} ≠ .error (.fault .circular) ∧
    Lower.Ends (Lower.constantId layered ⟨2⟩) { pool := layered.constants } ∧
    Lower.Ends (Lower.emitFunction layered {} ⟨0⟩) { pool := layered.constants } := by
  have structs : Shader.Acyclic layered.Includes := acyclic_of_earlier (by decide)
  have constants : Shader.Acyclic layered.constants.Contains := Pool.acyclic_of_earlier (by decide)
  have blocks : layered.Acyclic := by
    refine acyclic_of_lt fun (outer inner : BlockId) encloses => (?_ : outer.index < inner.index)
    obtain ⟨id, listed, owned⟩ := encloses
    have later : ∀ outer < 6, ∀ id ∈ layered.instsOf ⟨outer⟩, ∀ inner ∈ layered.blocksOf id, outer < inner.index := by
      decide
    exact later outer.index (tabled_encloses.lt ⟨id, listed, owned⟩) id listed inner owned
  obtain ⟨ends, parts⟩ := lowering_ends structs constants blocks {}
  obtain ⟨-, values, -, functions⟩ := parts { pool := layered.constants } constants
  exact ⟨by decide +kernel, ends, values ⟨2⟩, functions ⟨0⟩⟩

end Shader
