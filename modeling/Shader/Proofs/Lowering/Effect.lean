import Mathlib.Algebra.Order.Group.Multiset
import Mathlib.Data.Multiset.Filter
import Mathlib.Tactic.Abel
import Shader.Lower.Program
import Shader.Proofs.Binary.Filling
import Shader.Proofs.Nesting
import Shader.Proofs.Pool

/-!
What a part of a lowering does, as data.

A lowering only ever adds: instructions to the function it is in and to the sections of the module,
ids to its tables, constants to its pool. An `Effect` lists what was added, so that the effect of two
steps is the one after the other. `Ensures` is the form of every statement about a step: whenever it
succeeds, some effect leads from the state before to the state after, and the effect has a property
that may mention every later state.
-/
namespace Shader.Lower

open Binary

/-- Something of the module that gets an id when it is first referred to, wherever that is. -/
inductive Key where
  | value (id : ValueId)
  | label (block : BlockId)
  | merge (construct : InstId)
  | function (id : FuncId)
  deriving DecidableEq

/-- The ids that the instructions of a list define. -/
def results (code : List Instruction) : Multiset Word := ↑(code.filterMap Instruction.result)

@[simp] theorem results_nil : results [] = 0 := rfl

@[simp] theorem results_append (first second : List Instruction) :
    results (first ++ second) = results first + results second := by
  simp [results]

theorem results_cons (inst : Instruction) (code : List Instruction) :
    results (inst :: code) = ↑inst.result.toList + results code := by
  cases found : inst.result <;> simp [results, found]

theorem mem_results {code : List Instruction} {id : Word} :
    id ∈ results code ↔ ∃ inst ∈ code, inst.result = some id := by
  simp [results, List.mem_filterMap]

/-- What a part of a lowering adds. An id that is taken is taken for a key or for the part itself; an
alias gives a value an id that was taken before. -/
structure Effect where
  code : List Instruction := []
  locals : List Instruction := []
  globals : List Instruction := []
  imports : List Instruction := []
  functions : List FunctionCode := []
  taken : List (Option Key × Word) := []
  aliases : List (ValueId × Word) := []

namespace Effect

instance : EmptyCollection Effect := ⟨{}⟩

instance : Append Effect :=
  ⟨fun first second =>
    { code := first.code ++ second.code
      locals := first.locals ++ second.locals
      globals := first.globals ++ second.globals
      imports := first.imports ++ second.imports
      functions := first.functions ++ second.functions
      taken := first.taken ++ second.taken
      aliases := first.aliases ++ second.aliases }⟩

variable (first second third : Effect)

@[simp] theorem code_empty : (∅ : Effect).code = [] := rfl
@[simp] theorem locals_empty : (∅ : Effect).locals = [] := rfl
@[simp] theorem globals_empty : (∅ : Effect).globals = [] := rfl
@[simp] theorem imports_empty : (∅ : Effect).imports = [] := rfl
@[simp] theorem functions_empty : (∅ : Effect).functions = [] := rfl
@[simp] theorem taken_empty : (∅ : Effect).taken = [] := rfl
@[simp] theorem aliases_empty : (∅ : Effect).aliases = [] := rfl

@[simp] theorem code_append : (first ++ second).code = first.code ++ second.code := rfl
@[simp] theorem locals_append : (first ++ second).locals = first.locals ++ second.locals := rfl
@[simp] theorem globals_append : (first ++ second).globals = first.globals ++ second.globals := rfl
@[simp] theorem imports_append : (first ++ second).imports = first.imports ++ second.imports := rfl
@[simp] theorem functions_append : (first ++ second).functions = first.functions ++ second.functions := rfl
@[simp] theorem taken_append : (first ++ second).taken = first.taken ++ second.taken := rfl
@[simp] theorem aliases_append : (first ++ second).aliases = first.aliases ++ second.aliases := rfl

@[simp] theorem empty_append : ∅ ++ first = first := rfl

@[simp] theorem append_empty : first ++ ∅ = first := by
  change Effect.mk .. = first
  simp

theorem append_assoc : first ++ second ++ third = first ++ (second ++ third) := by
  change Effect.mk .. = Effect.mk ..
  simp

/-- The ids an effect defines. -/
def results (e : Effect) : Multiset Word :=
  Lower.results e.code + Lower.results e.locals + Lower.results e.globals + Lower.results e.imports +
    Lower.results (e.functions.flatMap FunctionCode.instructions)

/-- The ids that were taken for no key. -/
def loose (e : Effect) : Multiset Word :=
  ↑(e.taken.filterMap fun entry => if entry.1.isNone then some entry.2 else none)

/-- The ids that were taken for a key. -/
def keyed (e : Effect) : Multiset (Key × Word) :=
  ↑(e.taken.filterMap fun entry => entry.1.map fun key => (key, entry.2))

/-- The ids that values share with the values they stand for. -/
def shared (e : Effect) : Multiset (Key × Word) :=
  ↑(e.aliases.map fun entry => (Key.value entry.1, entry.2))

@[simp] theorem results_empty : (∅ : Effect).results = 0 := rfl
@[simp] theorem loose_empty : (∅ : Effect).loose = 0 := rfl
@[simp] theorem keyed_empty : (∅ : Effect).keyed = 0 := rfl
@[simp] theorem shared_empty : (∅ : Effect).shared = 0 := rfl

@[simp] theorem results_append : (first ++ second).results = first.results + second.results := by
  simp only [results, code_append, locals_append, globals_append, imports_append, functions_append,
    List.flatMap_append, Lower.results_append]
  abel

@[simp] theorem loose_append : (first ++ second).loose = first.loose + second.loose := by
  simp [loose]

@[simp] theorem keyed_append : (first ++ second).keyed = first.keyed + second.keyed := by
  simp [keyed]

@[simp] theorem shared_append : (first ++ second).shared = first.shared + second.shared := by
  simp [shared]

/-- Instructions added to the function. -/
def ofCode (code : List Instruction) : Effect := { code }

@[simp] theorem results_ofCode (code : List Instruction) : (ofCode code).results = Lower.results code := by
  simp [results, ofCode]

end Effect
end Shader.Lower

namespace Shader.Binary.FunctionCode

/-- Add a finished instruction; a label opens a new block. -/
def append (code : FunctionCode) (inst : Instruction) : FunctionCode :=
  if inst.op = .label then
    { code with closed := code.closed.push code.current, current := ⟨inst, #[]⟩ }
  else
    { code with current := { code.current with body := code.current.body.push inst } }

/-- Add instructions in order. -/
def extend (code : FunctionCode) (insts : List Instruction) : FunctionCode := insts.foldl append code

/-- Add local variables in order. -/
def addLocals (code : FunctionCode) (locals : List Instruction) : FunctionCode :=
  { code with locals := code.locals ++ locals.toArray }

@[simp] theorem extend_nil (code : FunctionCode) : code.extend [] = code := rfl

@[simp] theorem addLocals_nil (code : FunctionCode) : code.addLocals [] = code := by
  simp [addLocals]

/-- The instructions of the blocks in order, without the local variables. -/
def stream (code : FunctionCode) : List Instruction := code.blocks.flatMap BasicBlock.instructions

theorem stream_append (code : FunctionCode) (inst : Instruction) :
    (code.append inst).stream = code.stream ++ [inst] := by
  unfold append stream blocks
  split <;> simp [BasicBlock.instructions]

theorem append_others (code : FunctionCode) (inst : Instruction) :
    (code.append inst).declaration = code.declaration ∧ (code.append inst).params = code.params ∧
      (code.append inst).locals = code.locals := by
  unfold append
  split <;> exact ⟨rfl, rfl, rfl⟩

theorem append_addLocals (code : FunctionCode) (locals : List Instruction) (inst : Instruction) :
    (code.append inst).addLocals locals = (code.addLocals locals).append inst := by
  unfold append addLocals
  split <;> rfl

theorem extend_addLocals (code : FunctionCode) (locals insts : List Instruction) :
    (code.extend insts).addLocals locals = (code.addLocals locals).extend insts := by
  induction insts generalizing code with
  | nil => rfl
  | cons inst rest ih =>
    simp only [extend, List.foldl_cons] at ih ⊢
    rw [ih, append_addLocals]

theorem addLocals_addLocals (code : FunctionCode) (first second : List Instruction) :
    (code.addLocals first).addLocals second = code.addLocals (first ++ second) := by
  simp [addLocals]

theorem extend_extend (code : FunctionCode) (first second : List Instruction) :
    (code.extend first).extend second = code.extend (first ++ second) := by
  simp [extend]

end Shader.Binary.FunctionCode

namespace Shader.LowerState

open Binary List Lower

variable {s t u : LowerState} {id : Word}

/-- The ids of keys. -/
def bindings (s : LowerState) : Multiset (Key × Word) :=
  ↑(s.values.entries.map fun entry => (Key.value entry.1, entry.2)) +
    ↑(s.labels.entries.map fun entry => (Key.label entry.1, entry.2)) +
    ↑(s.merges.entries.map fun entry => (Key.merge entry.1, entry.2)) +
    ↑(s.functions.entries.map fun entry => (Key.function entry.1, entry.2))

theorem mem_bindings_value {value : ValueId} : (Key.value value, id) ∈ s.bindings ↔ (value, id) ∈ s.values.entries := by
  simp [bindings]

theorem mem_bindings_label {block : BlockId} : (Key.label block, id) ∈ s.bindings ↔ (block, id) ∈ s.labels.entries := by
  simp [bindings]

theorem mem_bindings_merge {construct : InstId} :
    (Key.merge construct, id) ∈ s.bindings ↔ (construct, id) ∈ s.merges.entries := by
  simp [bindings]

theorem mem_bindings_function {function : FuncId} :
    (Key.function function, id) ∈ s.bindings ↔ (function, id) ∈ s.functions.entries := by
  simp [bindings]

/-- What holds of every state of a lowering: a key has one id, the ids of constants are those of
declarations of the module, and only declarations, imports and functions define ids. -/
structure Sound (s : LowerState) : Prop where
  unique : (s.bindings.map Prod.fst).Nodup
  constants : ∀ entry ∈ s.constants.entries, entry.2 ∈ results s.out.globals.toList
  nulls : ∀ entry ∈ s.nulls.entries, entry.2 ∈ results s.out.globals.toList
  undefs : ∀ entry ∈ s.undefs.entries, entry.2 ∈ results s.out.globals.toList
  imports : ∀ entry ∈ s.imports.entries, entry.2 ∈ results s.out.imports.toList
  silent : ∀ inst ∈ s.out.entryPoints.toList ++ s.out.executionModes.toList ++ s.out.names.toList ++
    s.out.annotations.toList, inst.result = none

/-- Whatever the one state knows, the other knows too. -/
structure Grows (s t : LowerState) : Prop where
  bindings : ∀ entry ∈ s.bindings, entry ∈ t.bindings
  types : s.types.entries ⊆ t.types.entries
  constants : s.constants.entries ⊆ t.constants.entries
  nulls : s.nulls.entries ⊆ t.nulls.entries
  undefs : s.undefs.entries ⊆ t.undefs.entries
  imports : s.imports.entries ⊆ t.imports.entries
  pool : s.pool.Within t.pool
  declared : ∀ id ∈ results s.out.globals.toList, id ∈ results t.out.globals.toList
  imported : ∀ id ∈ results s.out.imports.toList, id ∈ results t.out.imports.toList

theorem Grows.refl (s : LowerState) : s.Grows s :=
  ⟨fun _ held => held, Subset.refl _, Subset.refl _, Subset.refl _, Subset.refl _,
    Subset.refl _, Pool.Within.refl _, fun _ held => held, fun _ held => held⟩

theorem Grows.trans (earlier : s.Grows t) (later : t.Grows u) : s.Grows u :=
  ⟨fun entry held => later.bindings entry (earlier.bindings entry held),
    Subset.trans earlier.types later.types, Subset.trans earlier.constants later.constants,
    Subset.trans earlier.nulls later.nulls, Subset.trans earlier.undefs later.undefs,
    Subset.trans earlier.imports later.imports, earlier.pool.trans later.pool,
    fun id held => later.declared id (earlier.declared id held),
    fun id held => later.imported id (earlier.imported id held)⟩

/-- The effect leads from the one state to the other. -/
structure Reaches (s : LowerState) (e : Effect) (t : LowerState) : Prop where
  grows : s.Grows t
  bindings : t.bindings = s.bindings + e.keyed + e.shared
  ids : e.taken.map (fun entry => entry.2.toNat) = range' s.out.ids.next.toNat e.taken.length
  next : t.out.ids.next.toNat = s.out.ids.next.toNat + e.taken.length
  code : t.code = s.code.map fun code => (code.addLocals e.locals).extend e.code
  outside : s.code = none → e.code = [] ∧ e.locals = []
  globals : t.out.globals.toList = s.out.globals.toList ++ e.globals
  imports : t.out.imports.toList = s.out.imports.toList ++ e.imports
  functions : t.out.functions.toList = s.out.functions.toList ++ e.functions
  memoryModel : t.out.memoryModel = s.out.memoryModel
  locals : ∀ inst ∈ e.locals, inst.op = .variableDecl

theorem Reaches.refl (s : LowerState) : s.Reaches ∅ s where
  grows := .refl s
  bindings := by simp
  ids := rfl
  next := rfl
  code := by simp
  outside := fun _ => ⟨rfl, rfl⟩
  globals := by simp
  imports := by simp
  functions := by simp
  memoryModel := rfl
  locals := by simp

theorem Reaches.trans {first second : Effect} (earlier : s.Reaches first t)
    (later : t.Reaches second u) : s.Reaches (first ++ second) u where
  grows := earlier.grows.trans later.grows
  bindings := by
    rw [later.bindings, earlier.bindings, Effect.keyed_append, Effect.shared_append]
    abel
  ids := by
    rw [Effect.taken_append, map_append, length_append, earlier.ids, later.ids, earlier.next,
      range'_append_1]
  next := by
    rw [later.next, earlier.next, Effect.taken_append, length_append, Nat.add_assoc]
  code := by
    rw [later.code, earlier.code, Option.map_map]
    congr 1
    funext code
    simp only [Function.comp_apply, Effect.locals_append, Effect.code_append]
    rw [FunctionCode.extend_addLocals, FunctionCode.addLocals_addLocals, FunctionCode.extend_extend]
  outside := by
    intro outside
    have still : t.code = none := by rw [earlier.code, outside]; rfl
    obtain ⟨firstCode, firstLocals⟩ := earlier.outside outside
    obtain ⟨secondCode, secondLocals⟩ := later.outside still
    simp [firstCode, firstLocals, secondCode, secondLocals]
  globals := by simp [later.globals, earlier.globals]
  imports := by simp [later.imports, earlier.imports]
  functions := by simp [later.functions, earlier.functions]
  memoryModel := later.memoryModel.trans earlier.memoryModel
  locals inst member := by
    rw [Effect.locals_append, mem_append] at member
    exact member.elim (earlier.locals inst) (later.locals inst)

end Shader.LowerState
