/-!
Positions in the tables of a module, and the counter that hands out target ids.

A reference into a table is a structure of its own, so a value cannot be taken for an
instruction. `text` is how a reference reads in prose, `describe` how it reads inside a
described value.
-/
namespace Shader

/-- A struct definition of the module. -/
structure StructId where
  index : Nat
  deriving DecidableEq

/-- A constant of the pool. -/
structure ConstId where
  index : Nat
  deriving DecidableEq

/-- A value that is not a constant. -/
structure ValueId where
  index : Nat
  deriving DecidableEq

/-- An instruction. -/
structure InstId where
  index : Nat
  deriving DecidableEq

/-- A block. -/
structure BlockId where
  index : Nat
  deriving DecidableEq

/-- A function. -/
structure FuncId where
  index : Nat
  deriving DecidableEq

/-- The block that holds the declarations of the whole module. -/
def BlockId.root : BlockId := ⟨0⟩

def StructId.describe (id : StructId) : String := s!"StructId({id.index})"
def ConstId.describe (id : ConstId) : String := s!"ConstId({id.index})"
def ValueId.describe (id : ValueId) : String := s!"ValueId({id.index})"
def FuncId.describe (id : FuncId) : String := s!"FuncId({id.index})"

def ValueId.text (id : ValueId) : String := s!"%{id.index}"
def InstId.text (id : InstId) : String := s!"inst{id.index}"
def BlockId.text (id : BlockId) : String := s!"bb{id.index}"

/-- A counter of 32-bit ids. The greatest word is never handed out, since the bound that
follows it would not be a word. -/
structure IdSource where
  next : UInt32
  deriving DecidableEq

namespace IdSource

/-- A counter whose first id is `first`. -/
def startingAt (first : UInt32) : IdSource := ⟨first⟩

/-- One past the last id handed out. -/
def bound (ids : IdSource) : UInt32 := ids.next

/-- The next id and the counter after it, unless the ids are used up. -/
def take? (ids : IdSource) : Option (UInt32 × IdSource) :=
  if ids.next = 0xFFFFFFFF then none else some (ids.next, ⟨ids.next + 1⟩)

end IdSource
end Shader
