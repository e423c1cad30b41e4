import Shader.Binary.Assembly
import Shader.Module

/-!
The state of a lowering and its basic steps.

Types, constants, values, labels and functions get their ids when they are first referred to, all from
the one counter of the assembled module. A register remembers which id each of them has.
-/
namespace Shader

open Binary

/-- Why a module cannot be lowered: it is not well formed, a function has more parameters than the
target allows, or the ids are used up. -/
inductive Failure where
  | fault (cause : Fault)
  | tooManyParameters (function : String)
  | idsExhausted
  deriving DecidableEq

/-- How many parameters a function may have. -/
def maxParameters : Nat := 255

/-- What a failure that is not a fault reports. -/
def Failure.detail : Failure → String
  | .tooManyParameters function => s!"Function '{function}' has more than {maxParameters} parameters"
  | .idsExhausted => "ids exhausted"
  | .fault cause => cause.message

/-- The ids of keys. The latest entry of a key counts. -/
structure Table (κ : Type) where
  entries : List (κ × Word) := []
  deriving DecidableEq

namespace Table

def find? {κ : Type} [DecidableEq κ] (table : Table κ) (key : κ) : Option Word :=
  table.entries.lookup key

def insert {κ : Type} (table : Table κ) (key : κ) (id : Word) : Table κ :=
  ⟨(key, id) :: table.entries⟩

end Table

/-- A function type: the ids of the return type and of the parameters' types. -/
structure Signature where
  returnType : Word
  params : List Word
  deriving DecidableEq

/-- Everything a lowering has made so far. Lowering needs constants of its own, which it stores in
`pool`; `code` is the function it is in. -/
structure LowerState where
  pool : Pool
  out : Assembly := .empty
  types : Table Ty := {}
  signatures : Table Signature := {}
  constants : Table ConstId := {}
  nulls : Table Ty := {}
  undefs : Table Ty := {}
  values : Table ValueId := {}
  functions : Table FuncId := {}
  labels : Table BlockId := {}
  merges : Table InstId := {}
  imports : Table String := {}
  code : Option FunctionCode := none
  deriving DecidableEq

/-- A step of a lowering. -/
abbrev Lower := StateT LowerState (Except Failure)

namespace Lower

/-- Stop because the module is not well formed. -/
def fail {α : Type} (fault : Fault) : Lower α := throw (.fault fault)

/-- Use the result of something that may find the module not well formed. -/
def check {α : Type} : Except Fault α → Lower α
  | .ok value => return value
  | .error fault => fail fault

/-- A new id. -/
def fresh : Lower Word := do
  let state ← get
  match state.out.takeId? with
  | some (id, out) => do
    set { state with out }
    return id
  | none => throw .idsExhausted

/-- One of the tables of a lowering. -/
structure Register (κ : Type) where
  read : LowerState → Table κ
  write : Table κ → LowerState → LowerState

namespace Register

def types : Register Ty := ⟨LowerState.types, fun table state => { state with types := table }⟩
def signatures : Register Signature :=
  ⟨LowerState.signatures, fun table state => { state with signatures := table }⟩
def constants : Register ConstId :=
  ⟨LowerState.constants, fun table state => { state with constants := table }⟩
def nulls : Register Ty := ⟨LowerState.nulls, fun table state => { state with nulls := table }⟩
def undefs : Register Ty := ⟨LowerState.undefs, fun table state => { state with undefs := table }⟩
def values : Register ValueId := ⟨LowerState.values, fun table state => { state with values := table }⟩
def functions : Register FuncId :=
  ⟨LowerState.functions, fun table state => { state with functions := table }⟩
def labels : Register BlockId := ⟨LowerState.labels, fun table state => { state with labels := table }⟩
def merges : Register InstId := ⟨LowerState.merges, fun table state => { state with merges := table }⟩
def imports : Register String :=
  ⟨LowerState.imports, fun table state => { state with imports := table }⟩

end Register

/-- Enter an id into a register. -/
def enter {κ : Type} (register : Register κ) (key : κ) (id : Word) : Lower Unit :=
  modify fun state => register.write ((register.read state).insert key id) state

/-- The id a register has for a key; a key it does not have gets the id that `make` gives. -/
def remember {κ : Type} [DecidableEq κ] (register : Register κ) (key : κ) (make : Lower Word) :
    Lower Word := do
  match (register.read (← get)).find? key with
  | some id => return id
  | none => do
    let id ← make
    enter register key id
    return id

/-- Add an instruction to a section of the assembled module. -/
def add (part : Assembly.Section) (op : Opcode) (operands : List Operand) : Lower Unit := do
  let state ← get
  let out ← check (state.out.push part op operands)
  set { state with out }

/-- Declare a type, a constant or a variable of the whole module. -/
def declare (op : Opcode) (operands : List Operand) : Lower Unit := add .globals op operands

/-- Decorate an id. -/
def decorate (id : Word) (decoration : List Word) : Lower Unit :=
  add .annotations .decorate (.id id :: decoration.map .literal)

/-- Give an id a name. -/
def nameId (id : Word) (name : String) : Lower Unit := add .names .name [.id id, .text name]

/-- Declare that the module needs a capability. -/
def require (capability : Capability) : Lower Unit :=
  modify fun state => { state with out := state.out.pushCapability capability }

/-- Declare that the module needs an extension. -/
def requireExtension (name : String) : Lower Unit :=
  modify fun state => { state with out := state.out.pushExtension name }

/-- Add an instruction to the function. -/
def emit (op : Opcode) (operands : List Operand) : Lower Unit := do
  let state ← get
  match state.code with
  | none => fail .outsideFunction
  | some code => do
    let code ← check (code.push op operands)
    set { state with code := some code }

/-- Add a local variable to the function. -/
def emitLocal (operands : List Operand) : Lower Unit := do
  let state ← get
  match state.code with
  | none => fail .outsideFunction
  | some code => do
    let code ← check (code.pushLocal operands)
    set { state with code := some code }

/-- Store a constant in the pool. -/
def intern (constant : Constant) : Lower ConstId := do
  let state ← get
  let (id, pool) := state.pool.insert constant
  set { state with pool }
  return id

/-- Read from the pool. -/
def askPool {α : Type} (read : Pool → Except Fault α) : Lower α := do
  check (read (← get).pool)

end Lower
end Shader
