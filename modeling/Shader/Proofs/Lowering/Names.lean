import Shader.Proofs.Binary.Text
import Shader.Proofs.Lowering.EntryPoints
import Shader.Proofs.Lowering.NameSections
import Shader.Proofs.Lowering.Naming

/-!
The names of a module can be read off the lowered module.

Every name of what is lowered is written with the id of what it belongs to, and nothing else is named. It is read back
as it was, with no words left over, unless it has a zero character: then a reader takes its first part for the name, and
in an entry point it takes what is left of the name for ids of the interface.
-/
namespace Shader

open Binary List Instruction Option

variable {subject : Subject} {id : Word}

/-- What the instruction says that gives a subject its name. -/
def Subject.saying (id : Word) (name : String) : Subject → Naming
  | .member _ index => ⟨id, some (.ofNat index), name⟩
  | .function _ | .value _ | .struct _ => ⟨id, none, name⟩

theorem Subject.naming?_naming {name : String} :
    (subject.naming id name).frame.naming? = some (subject.saying id name) ↔ '\x00' ∉ name.toList := by
  cases subject with
  | member => exact naming?_memberName
  | function | value | struct => exact naming?_name

namespace Lower

open LowerState

variable {ref : FuncId} {inst : Instruction}

/-- What a lowering gives a name. Structs are lowered that have got an id. -/
inductive Lowered (m : Module) (s : LowerState) : Subject → Prop where
  | function {ref : FuncId} {function : Function} (declared : m.function ref = .ok function) :
      Lowered m s (.function ref)
  | param {ref : FuncId} {function : Function} {param : ValueId} (declared : m.function ref = .ok function)
      (member : param ∈ function.params) : Lowered m s (.value param)
  | global {id : InstId} {inst : Inst} {result : ValueId} (listed : id ∈ m.instsOf .root) (held : m.inst id = .ok inst)
      (named : result ∈ inst.named) : Lowered m s (.value result)
  | result {ref : FuncId} {function : Function} {block : BlockId} {id : InstId} {inst : Inst} {result : ValueId}
      (declared : m.function ref = .ok function) (lowered : m.LoweredFrom function.entry block)
      (listed : id ∈ m.instsOf block) (held : m.inst id = .ok inst) (named : result ∈ inst.named) :
      Lowered m s (.value result)
  | struct {subject : Subject} {ref : StructId} {id : Word} (part : subject.struct? = some ref)
      (declared : (Ty.struct ref, id) ∈ s.types.entries) : Lowered m s subject

variable {m : Module} {options : Options} {state : LowerState}

theorem mem_range_of_function {function : Function} (declared : m.function ref = .ok function) :
    ref.index ∈ range m.functions.size := by
  unfold Module.function at declared
  split at declared
  · exact mem_range.mpr (Array.getElem?_eq_some_iff.mp ‹_›).1
  · cases declared

/-- Names are those of subjects, with their ids, and whatever is lowered is named. -/
theorem names_of_run (ran : Ran m options state) :
    (∀ inst ∈ state.out.names.toList, ∃ subject id name, m.nameOf? subject = some name ∧ state.HasId subject id ∧
      inst = subject.naming id name) ∧ ∀ subject, Lowered m state subject → state.Tells m subject := by
  have leaves : Leaves m (fun _ _ => False) (emitParts m options) _ :=
    leaves_emitRoot.both fun _ => .forM fun index _ => leaves_emitFunction
  obtain ⟨grows, told⟩ := leaves _ _ _ ran.parts
  obtain ⟨root, functions⟩ := told state (.refl state)
  constructor
  · intro inst listed
    rcases grows.sound inst listed with first | ⟨subject, id, name, named, has | promise, same⟩
    · cases first
    · exact ⟨subject, id, name, named, has, same⟩
    · exact promise.elim
  · intro subject lowered
    cases lowered with
    | function declared => exact (functions _ (mem_range_of_function declared)).1
    | param declared member => exact ((functions _ (mem_range_of_function declared)).2 _ declared).1 _ member
    | global listed held named => exact root _ listed _ held _ named
    | result declared lowered listed held named =>
      exact ((functions _ (mem_range_of_function declared)).2 _ declared).2 _ lowered _ listed _ held _ named
    | @struct _ ref id part declared =>
      rcases grows.structs ref id declared with first | shown
      · cases first
      · refine (shown subject part).tells ?_
        cases subject with
        | function | value => cases part
        | struct | member =>
          cases part
          exact declared

/-- The instruction announces the function as an entry point, with those input and output variables that it refers to
itself. What it says is read back unless the name has a zero character. -/
def AnnouncesBack (m : Module) (s : LowerState) (ref : FuncId) (frame : Frame) : Prop :=
  ∃ function listed model start ids, m.function ref = .ok function ∧ s.HasId (.function ref) start ∧
    Forall₂ (fun value id => s.HasId (.value value) id) listed ids ∧ listed.Sublist m.ioVariables ∧
    (∀ value ∈ m.ioVariables, value ∈ listed ↔ m.Uses function value) ∧
    (frame.announcement? = some ⟨model, start, function.name, ids⟩ ↔ '\x00' ∉ function.name.toList)

theorem announcesBack_of_listsUsed (lists : ListsUsed m state ref inst) : AnnouncesBack m state ref inst.frame := by
  obtain ⟨function, listed, declared, ⟨other, model, start, ids, same, started, bound, rfl⟩, sub, used⟩ := lists
  cases declared.symm.trans same
  refine ⟨function, listed, model, start, ids, declared, mem_bindings_function.mp started, ?_, sub, used,
    announcement?_entryPoint⟩
  exact bound.imp fun _ _ held => mem_bindings_value.mp held

theorem op_naming {name : String} :
    (subject.naming id name).op = .name ∨ (subject.naming id name).op = .memberName := by
  cases subject with
  | member => exact .inr rfl
  | function | value | struct => exact .inl rfl

theorem op_of_listsUsed (lists : ListsUsed m state ref inst) : inst.op = .entryPoint := by
  obtain ⟨-, -, -, ⟨-, -, -, -, -, -, -, rfl⟩, -⟩ := lists
  rfl

/-- Of all instructions, those of the entry points announce one. -/
theorem filter_entryPoints {before between after entryPoints names : List Instruction}
    (plain : ∀ inst ∈ before ++ between ++ after, inst.Plain)
    (isEntryPoint : ∀ inst ∈ entryPoints, inst.op = .entryPoint)
    (isName : ∀ inst ∈ names, inst.op = .name ∨ inst.op = .memberName) :
    ((before ++ entryPoints ++ between ++ names ++ after).map frame).filter
      (fun frame => frame.code = Opcode.entryPoint.code) = entryPoints.map frame := by
  have announces (inst : Instruction) : inst.op.code = Opcode.entryPoint.code ↔ inst.op = .entryPoint :=
    ⟨Opcode.eq_of_code (by decide +kernel), congrArg Opcode.code⟩
  have other {part : List Instruction} (each : ∀ inst ∈ part, inst.op ≠ .entryPoint) :
      (part.map frame).filter (fun frame => frame.code = Opcode.entryPoint.code) = [] := by
    simpa [filter_eq_nil_iff, frame, announces] using each
  have quiet {part : List Instruction} (within : part ⊆ before ++ between ++ after) (inst : Instruction)
      (member : inst ∈ part) : inst.op ≠ .entryPoint := by
    intro same
    have silent := (plain inst (within member)).1
    rw [same] at silent
    cases silent
  have kept : (entryPoints.map frame).filter (fun frame => frame.code = Opcode.entryPoint.code) =
      entryPoints.map frame := by
    simpa [filter_eq_self, frame, announces] using isEntryPoint
  have named (inst : Instruction) (member : inst ∈ names) : inst.op ≠ .entryPoint := by
    rcases isName inst member with same | same <;> simp [same]
  have first := other (quiet (by simp : before ⊆ before ++ between ++ after))
  have middle := other (quiet (by simp : between ⊆ before ++ between ++ after))
  have last := other (quiet (by simp : after ⊆ before ++ between ++ after))
  simp only [map_append, filter_append, kept, other named, first, middle, last, nil_append,
    append_nil]

/-- The names of what is lowered, and nothing else, are written with the ids of what they belong to, and entry points
are announced by their names. Each name is read back as it was, with nothing left over but the ids of the interface,
unless it has a zero character. -/
theorem names_read_back {words : List Word} (ran : (emitModule m options).run { pool := m.constants } = .ok ((), state))
    (written : state.out.assemble = .ok words) :
    ∃ found, frames (words.drop 5) = some found ∧
      (∀ frame ∈ found, frame.code = Opcode.name.code ∨ frame.code = Opcode.memberName.code →
        ∃ subject id name, m.nameOf? subject = some name ∧ state.HasId subject id ∧
          (frame.naming? = some (subject.saying id name) ↔ '\x00' ∉ name.toList)) ∧
      (∀ subject name, Lowered m state subject → m.nameOf? subject = some name → ∃ id, state.HasId subject id ∧
        ('\x00' ∉ name.toList → ∃ frame ∈ found, frame.naming? = some (subject.saying id name))) ∧
      Forall₂ (AnnouncesBack m state) m.staged (found.filter fun frame => frame.code = Opcode.entryPoint.code) := by
  obtain ⟨listed, lists, same⟩ := bind_eq_ok.mp written
  cases same
  obtain ⟨before, between, after, split, plain⟩ := instructions_split ran lists
  obtain ⟨sound, complete⟩ := names_of_run ran
  have announced := listsUsed_of_run ran
  have isEntryPoint (inst : Instruction) (member : inst ∈ state.out.entryPoints.toList) : inst.op = .entryPoint := by
    obtain ⟨ref, -, lists⟩ := forall₂_mem_right announced member
    exact op_of_listsUsed lists
  have sections (inst : Instruction) (member : inst ∈ listed) :
      inst.Plain ∨ inst ∈ state.out.entryPoints.toList ∨ inst ∈ state.out.names.toList := by
    have place := plain inst
    simp only [split, mem_append] at member place
    tauto
  have short : ∀ inst ∈ listed, inst.wordCount ≤ maxWords := by
    intro inst member
    rcases sections inst member with plain | member | member
    · exact plain.2
    · exact (staysQuiet_of_run ran).2 inst (mem_append_right _ member)
    · exact (staysQuiet_of_run ran).2 inst (mem_append_left _ member)
  refine ⟨listed.map frame, frames_flatMap_words short, ?_, ?_, ?_⟩
  · rintro frame isFrame names
    obtain ⟨inst, member, rfl⟩ := mem_map.mp isFrame
    have isNaming : inst.op = .name ∨ inst.op = .memberName :=
      names.imp (Opcode.eq_of_code (by decide +kernel)) (Opcode.eq_of_code (by decide +kernel))
    rcases sections inst member with plain | member | member
    · have silent := plain.1
      rcases isNaming with same | same <;> · rw [same] at silent; cases silent
    · rw [isEntryPoint inst member] at isNaming
      rcases isNaming with same | same <;> cases same
    · obtain ⟨subject, id, name, named, has, rfl⟩ := sound inst member
      exact ⟨subject, id, name, named, has, Subject.naming?_naming⟩
  · intro subject name lowered named
    obtain ⟨id, has, told⟩ := complete subject lowered name named
    refine ⟨id, has, fun plain => ⟨_, mem_map_of_mem ?_, Subject.naming?_naming.mpr plain⟩⟩
    rw [split]
    simp [told]
  · have isName (inst : Instruction) (member : inst ∈ state.out.names.toList) :
        inst.op = .name ∨ inst.op = .memberName := by
      obtain ⟨subject, id, name, -, -, rfl⟩ := sound inst member
      exact op_naming
    rw [split, filter_entryPoints plain isEntryPoint isName, forall₂_map_right_iff]
    exact announced.imp fun ref inst lists => announcesBack_of_listsUsed lists

/-- A fragment that loads a struct, and a function with a parameter. Their names have one to four bytes a character, and
take up to three words. -/
def christened : Module where
  structs := #[⟨some "Größe", [⟨some "x", .f32, 0⟩, ⟨some "длина", .f32, 4⟩], false⟩]
  values := #[⟨.pointer .output .f32 .readWrite, some "farbe", .result ⟨0⟩⟩,
    ⟨.pointer .functionLocal (.struct ⟨0⟩) .readWrite, some "vier", .result ⟨1⟩⟩,
    ⟨.struct ⟨0⟩, some "値", .result ⟨2⟩⟩, ⟨.f32, some "", .functionParam ⟨1⟩⟩]
  insts := #[⟨.var { attributes := { location := some 0 } }, [⟨0⟩], ⟨0⟩⟩, ⟨.var {}, [⟨1⟩], ⟨1⟩⟩,
    ⟨.load (.ssa ⟨1⟩), [⟨2⟩], ⟨1⟩⟩, ⟨.ret none, [], ⟨1⟩⟩, ⟨.ret none, [], ⟨2⟩⟩]
  blocks := #[{ insts := [⟨0⟩] }, { insts := [⟨1⟩, ⟨2⟩, ⟨3⟩] }, { insts := [⟨4⟩] }]
  functions := #[⟨"main", [], .void, .fragment, none, ⟨1⟩⟩, ⟨"🎨", [⟨3⟩], .void, .none, none, ⟨2⟩⟩]

/-- The names of the module, each with what it belongs to. -/
def christenings : List (Subject × String) :=
  [(.function ⟨0⟩, "main"), (.function ⟨1⟩, "🎨"), (.value ⟨0⟩, "farbe"), (.value ⟨1⟩, "vier"), (.value ⟨2⟩, "値"),
    (.value ⟨3⟩, ""), (.struct ⟨0⟩, "Größe"), (.member ⟨0⟩ 0, "x"), (.member ⟨0⟩ 1, "длина")]

theorem christened_lowered {state : LowerState} (declared : (Ty.struct ⟨0⟩, id) ∈ state.types.entries) :
    ∀ entry ∈ christenings, Lowered christened state entry.1 := by
  simp only [christenings, forall_mem_cons, not_mem_nil, false_implies, implies_true, and_true]
  have var : (⟨0⟩ : InstId) ∈ christened.instsOf .root := by decide
  have declaration : (⟨1⟩ : InstId) ∈ christened.instsOf ⟨1⟩ := by decide
  have load : (⟨2⟩ : InstId) ∈ christened.instsOf ⟨1⟩ := by decide
  have main : christened.function ⟨0⟩ = .ok ⟨"main", [], .void, .fragment, none, ⟨1⟩⟩ := rfl
  have other : christened.function ⟨1⟩ = .ok ⟨"🎨", [⟨3⟩], .void, .none, none, ⟨2⟩⟩ := rfl
  exact ⟨.function main, .function other, .global var rfl (by decide), .result main .refl declaration rfl (by decide),
    .result main .refl load rfl (by decide), .param other (by decide), .struct rfl declared, .struct rfl declared,
    .struct rfl declared⟩

theorem christened_read_back : ∃ state words found,
    (emitModule christened {}).run { pool := christened.constants } = .ok ((), state) ∧
    state.out.assemble = .ok words ∧ frames (words.drop 5) = some found ∧
    (∀ entry ∈ christenings, ∃ id, state.HasId entry.1 id ∧
      ∃ frame ∈ found, frame.naming? = some (entry.1.saying id entry.2)) ∧
    Forall₂ (AnnouncesBack christened state) [⟨0⟩] (found.filter fun frame => frame.code = Opcode.entryPoint.code) := by
  obtain ⟨⟨⟨⟩, state⟩, ran, declared, words, written⟩ : ∃ pair,
      (emitModule christened {}).run { pool := christened.constants } = .ok pair ∧
        pair.2.types.find? (.struct ⟨0⟩) = some 10 ∧ ∃ words, pair.2.out.assemble = .ok words := by
    decide +kernel
  obtain ⟨found, framed, -, named, announced⟩ := names_read_back ran written
  refine ⟨state, words, found, ran, written, framed, fun entry listed => ?_, announced⟩
  have names : ∀ entry ∈ christenings, christened.nameOf? entry.1 = some entry.2 ∧ '\x00' ∉ entry.2.toList := by decide
  obtain ⟨id, has, read⟩ :=
    named entry.1 entry.2 (christened_lowered (mem_of_find? declared) entry listed) (names entry listed).1
  exact ⟨id, has, read (names entry listed).2⟩

/-- A fragment whose name has a zero character. -/
def severed : Module where
  insts := #[⟨.ret none, [], ⟨1⟩⟩]
  blocks := #[{}, { insts := [⟨0⟩] }]
  functions := #[⟨"m\x00ain", [], .void, .fragment, none, ⟨1⟩⟩]

/-- The name ends too early, and the last of its letters is taken for an id of the interface. -/
theorem severed_misread : ∃ state words found,
    (emitModule severed {}).run { pool := severed.constants } = .ok ((), state) ∧ state.out.assemble = .ok words ∧
    frames (words.drop 5) = some found ∧ severed.staged = [⟨0⟩] ∧ severed.nameOf? (.function ⟨0⟩) = some "m\x00ain" ∧
    (found.filter fun frame => frame.code = Opcode.entryPoint.code).map Frame.announcement? =
      [some ⟨4, 1, "m", [110]⟩] := by
  obtain ⟨⟨⟨⟩, state⟩, ran, words, written, found, framed, read⟩ : ∃ pair,
      (emitModule severed {}).run { pool := severed.constants } = .ok pair ∧ ∃ words, pair.2.out.assemble = .ok words ∧
        ∃ found ∈ frames (words.drop 5),
          (found.filter fun frame => frame.code = Opcode.entryPoint.code).map Frame.announcement? =
          [some ⟨4, 1, "m", [110]⟩] := by
    decide +kernel
  exact ⟨state, words, found, ran, written, framed, by decide, by decide, read⟩

end Lower
end Shader
